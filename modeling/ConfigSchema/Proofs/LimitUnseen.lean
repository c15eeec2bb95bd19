import ConfigSchema.Proofs.Lockstep

/-!
# `Run.UnlessCut` — a depth limit that is not reached is not seen

A container below the last level that may be entered is refused, and an event says so. Nothing else tells a
validation of its limit: unless that event is logged, the validation is the same under any greater limit, event by event
(`Schema.validate_raised`). Alternatives that have failed, first parts of compositions and checks of injected defaults
are no exception, for what they log stays in the log, though what they report is dropped.

The two runs start from one supply of identities and are *equal*, as long as nothing is cut off. So a run that is cut
off somewhere may be followed by anything (`UnlessCut.of_log`), and the proof never has to say what happens instead
under a greater limit.
-/

namespace ConfigSchema

open Checker

/-- Does the event say that a container was cut off? -/
def Event.isCut : Event → Bool
  | .tooDeep .. => true
  | _ => false

theorem Event.isCut_eq_false {e : Event} (h : e.message ≠ "validation depth limit reached") : e.isCut = false := by
  cases e with
  | tooDeep depth maxDepth => exact absurd rfl h
  | _ => rfl

/-! ## Runs that are not cut off -/

namespace Run

variable {α β : Type} {r s : Run α}

/-- **Unless `r` is cut off, `s` runs as `r` does.** -/
def UnlessCut (r s : Run α) : Prop :=
  ∀ next, (∀ e ∈ (r.start next).events, e.isCut = false) → s.start next = r.start next

namespace UnlessCut

theorem refl (r : Run α) : UnlessCut r r := fun _ _ => rfl

/-- Once something has been cut off there is nothing left to show. -/
theorem of_log (depth maxDepth : Nat) (f : Unit → Run α) (s : Run α) :
    UnlessCut (log (.tooDeep depth maxDepth) >>= f) s := by
  intro next h
  have hcut := h (.tooDeep depth maxDepth) List.mem_cons_self
  simp [Event.isCut] at hcut

theorem bind {f g : α → Run β} (h : UnlessCut r s) (hf : ∀ a, UnlessCut (f a) (g a)) :
    UnlessCut (r >>= f) (s >>= g) := by
  intro next huncut
  rw [start_bind] at huncut
  obtain ⟨hfirst, hrest⟩ := List.forall_mem_append.mp huncut
  rw [start_bind, start_bind, h next hfirst, hf _ _ hrest]

theorem map {f : α → β} (h : UnlessCut r s) : UnlessCut (f <$> r) (f <$> s) := by
  rw [map_eq_pure_bind, map_eq_pure_bind]
  exact bind h fun a => refl _

theorem mapM {f g : α → Run β} {l : List α} (h : ∀ a ∈ l, UnlessCut (f a) (g a)) :
    UnlessCut (l.mapM f) (l.mapM g) := by
  induction l with
  | nil => exact refl _
  | cons a rest ih =>
      rw [List.mapM_cons, List.mapM_cons]
      refine bind (h a List.mem_cons_self) fun b => ?_
      exact bind (ih fun x hx => h x (List.mem_cons_of_mem a hx)) fun bs => refl _

end UnlessCut

end Run

/-! ## Greater limits -/

namespace Position

/-- **`q` is where `p` is**, under a limit that is as great or greater. -/
structure Looser (p q : Position) : Prop where
  depth_eq : q.depth = p.depth
  maxDepth_le : p.limits.maxDepth ≤ q.limits.maxDepth

variable {p q : Position}

theorem Looser.descend (h : Looser p q) : Looser p.descend q.descend := by
  refine ⟨?_, h.maxDepth_le⟩
  unfold Position.descend
  rw [h.depth_eq]

theorem Looser.not_exceeded (h : Looser p q) (hp : ¬ p.exceeded = true) : ¬ q.exceeded = true := by
  have hdepth := h.depth_eq
  have hle := h.maxDepth_le
  rw [Bool.not_eq_true, exceeded_eq_false_iff] at *
  omega

end Position

/-! ## Checkers that do not see the limit -/

namespace Checker

/-- **The check does not see the limit** unless it is cut off. -/
def LimitBlind (check : Checker) : Prop :=
  ∀ p q, Position.Looser p q → ∀ v, Run.UnlessCut (check p v) (check q v)

variable {check first second element : Checker} {p q : Position}

theorem limitBlind_accept : accept.LimitBlind := fun _ _ _ _ => .refl _

theorem limitBlind_reject (expected : String) : (reject expected).LimitBlind := fun _ _ _ _ => .refl _

theorem limitBlind_ofKind (k : Kind) (expected : String) : (ofKind k expected).LimitBlind := fun _ _ _ _ => .refl _

theorem limitBlind_literal (literals : List Value) (expected : String) : (literal literals expected).LimitBlind :=
  fun _ _ _ _ => .refl _

theorem LimitBlind.advising (warning : String) (h : check.LimitBlind) : (advising warning check).LimitBlind :=
  fun p q hpq v => Run.UnlessCut.bind (h p q hpq v) fun _ => .refl _

theorem LimitBlind.andThen (hfirst : first.LimitBlind) (hsecond : second.LimitBlind) :
    (andThen first second).LimitBlind := by
  intro p q hpq v
  refine Run.UnlessCut.bind (hfirst p q hpq v) fun c => ?_
  split
  · exact hsecond p q hpq c.value
  · exact .refl _

theorem limitBlind_firstOf (expected : String) {checks : List Checker} (h : ∀ check ∈ checks, check.LimitBlind) :
    (firstOf expected checks).LimitBlind := by
  induction checks with
  | nil => exact limitBlind_reject expected
  | cons check rest ih =>
      intro p q hpq v
      refine Run.UnlessCut.bind (h check List.mem_cons_self p q hpq v) fun c => ?_
      split
      · exact .refl _
      · exact ih (fun check' h' => h check' (List.mem_cons_of_mem check h')) p q hpq c.value

theorem LimitBlind.elements (h : element.LimitBlind) : (elements element).LimitBlind := by
  intro p q hpq v
  cases v with
  | array items =>
      by_cases hcut : p.exceeded = true
      · rw [Checker.elements, if_pos hcut]
        exact .of_log _ _ _ _
      · rw [Checker.elements, Checker.elements, if_neg hcut, if_neg (hpq.not_exceeded hcut)]
        exact Run.UnlessCut.bind (.mapM fun x _ => h _ _ hpq.descend x) fun _ => .refl _
  | _ => exact .refl _

/-- What is reported of an injected default is dropped, but not that it was cut off. -/
theorem unlessCut_inject {slot : Slot} (h : slot.check.LimitBlind) (hpq : Position.Looser p q) (d : Value) :
    Run.UnlessCut (slot.inject p d) (slot.inject q d) := by
  refine Run.UnlessCut.bind (.refl _) fun _ => ?_
  refine Run.UnlessCut.bind (.refl _) fun copy => ?_
  exact Run.UnlessCut.bind (h p q hpq copy) fun _ => .refl _

theorem limitBlind_entries {checkOf : String → Checker} {slots : List Slot} (hcheck : ∀ key, (checkOf key).LimitBlind)
    (hslots : ∀ slot ∈ slots, slot.check.LimitBlind) : (entries checkOf slots).LimitBlind := by
  intro p q hpq v
  cases v with
  | object fields =>
      by_cases hcut : p.exceeded = true
      · rw [entries, if_pos hcut]
        exact .of_log _ _ _ _
      · rw [entries, entries, if_neg hcut, if_neg (hpq.not_exceeded hcut)]
        refine Run.UnlessCut.bind (.mapM fun e _ => .map (hcheck e.1 _ _ hpq.descend e.2)) fun results => ?_
        refine Run.UnlessCut.bind (.mapM fun m hm => ?_) fun added => .refl _
        exact unlessCut_inject (hslots m.1 (mem_missing hm).1) hpq.descend m.2
  | _ => exact .refl _

end Checker

/-! ## Validations under greater limits -/

namespace Schema

variable {base : Nat} {s : Schema}

theorem limitBlind_check (hc : s.CustomFree) : s.check.LimitBlind := by
  have hclosed : Checker.Closed Checker.LimitBlind fun _ => True :=
    { accept := limitBlind_accept
      ofKind := limitBlind_ofKind
      andThen := Checker.LimitBlind.andThen
      firstOf := limitBlind_firstOf
      advising := fun warning {_} h => h.advising warning
      elements := Checker.LimitBlind.elements
      entries := fun hcheck hslots _ => limitBlind_entries hcheck hslots }
  exact hclosed.check_of_customFree limitBlind_literal hc

/-- **The depth limit is invisible unless it is hit.** A validation that does not say that it has reached its limit is
    the same under any greater one, if it draws the same identities. If it draws others, the outcome, the value and the
    events are still the same, but for those identities. -/
theorem validate_raised (hc : s.CustomFree) (hl : s.OldLiterals base) {limits limits' : Limits}
    (hle : limits.maxDepth ≤ limits'.maxDepth) (v : Value) {next next' : Nat} (hn : base ≤ next) (hn' : base ≤ next')
    (huncut : ∀ e ∈ ((s.validate limits v).start next).events, e.message ≠ "validation depth limit reached") :
    let ran := (s.validate limits v).start next
    let raised := (s.validate limits' v).start next'
    raised.result.outcome.Resembles base ran.result.outcome ∧ raised.result.value.Resembles base ran.result.value ∧
      raised.events = ran.events ∧ (next' = next → raised = ran) := by
  intro ran raised
  have hequal : (s.validate limits' v).start next = ran :=
    limitBlind_check hc (.root limits) (.root limits') ⟨rfl, hle⟩ v next fun e he => e.isCut_eq_false (huncut e he)
  obtain ⟨hresults, hevents⟩ := validate_inStep hc hl limits' v
  obtain ⟨houtcome, hvalue⟩ := (hresults next' next hn' hn).1
  rw [hequal] at houtcome hvalue
  refine ⟨houtcome, hvalue, ?_, ?_⟩
  · rw [← hequal]
    exact hevents next' next hn' hn
  · rintro rfl
    exact hequal

/-- The runner is injected on the last level. The object in the array lies below that, but nothing walks into it: one
    alternative refuses it for its kind, and the other one takes anything. -/
theorem validate_raised_runner :
    let runner := object [("run", function.withDefault (.function ⟨0, "run"⟩))]
    let s := object [("hooks", either [array int, array any]), ("runner", runner.withDefault (.object []))]
    let limits : Limits := ⟨1, by decide⟩
    let v := Value.object [("hooks", .array [.object []])]
    let ran := (s.validate limits v).start 7
    let raised := (s.validate .standard v).start 9
    let left := fun id => Value.object
      [("hooks", .array [.object []]), ("runner", .object [("run", .function ⟨id, "run"⟩)])]
    s.CustomFree ∧ s.OldLiterals 7 ∧ limits.maxDepth ≤ Limits.standard.maxDepth ∧
      (∀ e ∈ ran.events, e.message ≠ "validation depth limit reached") ∧
      ran.result.value = left 7 ∧ raised.result.value = left 9 ∧
      raised.result.outcome.Resembles 7 ran.result.outcome ∧ raised.result.value.Resembles 7 ran.result.value ∧
      raised.events = ran.events := by
  intro runner s limits v ran raised left
  have hc : s.CustomFree := by decide
  have hl : s.OldLiterals 7 := by decide
  have hle : limits.maxDepth ≤ Limits.standard.maxDepth := by decide
  have hevents : ran.events = [.injected "runner" "object", .injected "run" "function"] := rfl
  have huncut : ∀ e ∈ ran.events, e.message ≠ "validation depth limit reached" := by
    rw [hevents]
    decide
  obtain ⟨houtcome, hvalue, hsame, -⟩ := validate_raised hc hl hle v (Nat.le_refl 7) (Nat.le_add_right 7 2) huncut
  exact ⟨hc, hl, hle, huncut, rfl, rfl, houtcome, hvalue, hsame⟩

end Schema

end ConfigSchema
