import ConfigSchema.Proofs.Accounting
import ConfigSchema.Proofs.Cloning

/-!
# `Schema.validate_unshared` — no two documents share a callable

What a call of a validation injects are clones of callables that the schema stores, each under an identity that was
drawn for it (`Schema.cloned`). A schema may be asked again and again, also about what it has left before
(`Schema.Calls`). The callables that are there before a call have identities below its supply, and each call draws from
where the one before it has stopped, or from later on. So no identity is drawn twice, and none that was there before.
-/

namespace ConfigSchema

/-! ## Stored callables -/

mutual

/-- The callables that a schema stores, in its defaults and its literals. -/
def Schema.callables : Schema → List Callable
  | ⟨default?, rule⟩ => default?.elim [] Value.callables ++ rule.callables

/-- The callables that are stored in a rule. -/
def Rule.callables : Rule → List Callable
  | .compose first second => first.callables ++ second.callables
  | .array element => element.callables
  | .object fields _ => Schema.callablesOfFields fields
  | .objects _ specifics element => element.callables ++ Schema.callablesOfFields specifics
  | .either alternatives => Schema.callablesOfList alternatives
  | .oneOf literals => Value.callablesOfItems literals
  | .deprecated inner _ => inner.callables
  | _ => []

/-- The callables that are stored in the schemas of the fields. -/
def Schema.callablesOfFields : List (String × Schema) → List Callable
  | [] => []
  | (_, s) :: rest => s.callables ++ Schema.callablesOfFields rest

/-- The callables that are stored in the schemas. -/
def Schema.callablesOfList : List Schema → List Callable
  | [] => []
  | s :: rest => s.callables ++ Schema.callablesOfList rest

end

namespace Schema

theorem callables_subset_of_mem_fields {fields : Fields Schema} {t : Schema} (h : t ∈ fields.map Prod.snd) :
    t.callables ⊆ callablesOfFields fields := by
  induction fields with
  | nil => exact absurd h List.not_mem_nil
  | cons field rest ih =>
      obtain ⟨key, s⟩ := field
      rw [callablesOfFields]
      rcases List.mem_cons.mp h with rfl | ht
      · exact List.subset_append_left _ _
      · exact List.subset_append_of_subset_right _ (ih ht)

theorem callables_subset_of_mem_list {schemas : List Schema} {t : Schema} (h : t ∈ schemas) :
    t.callables ⊆ callablesOfList schemas := by
  induction schemas with
  | nil => exact absurd h List.not_mem_nil
  | cons s rest ih =>
      rw [callablesOfList]
      rcases List.mem_cons.mp h with rfl | ht
      · exact List.subset_append_left _ _
      · exact List.subset_append_of_subset_right _ (ih ht)

/-- What is stored in a part is stored in the schema. -/
theorem callables_subset_of_part {s t : Schema} (h : t ∈ s.rule.parts) : t.callables ⊆ s.callables := by
  obtain ⟨default?, rule⟩ := s
  rw [callables]
  refine List.subset_append_of_subset_right _ ?_
  cases rule with
  | compose first second =>
      rw [Rule.callables]
      rcases List.mem_cons.mp h with rfl | ht
      · exact List.subset_append_left _ _
      · rw [List.mem_singleton.mp ht]
        exact List.subset_append_right _ _
  | array element =>
      rw [List.mem_singleton.mp h]
      exact List.Subset.refl _
  | object fields suggest => exact callables_subset_of_mem_fields h
  | objects advice specifics element =>
      rw [Rule.callables]
      rcases List.mem_cons.mp h with rfl | ht
      · exact List.subset_append_left _ _
      · exact List.subset_append_of_subset_right _ (callables_subset_of_mem_fields ht)
  | either alternatives => exact callables_subset_of_mem_list h
  | deprecated inner notice =>
      rw [List.mem_singleton.mp h]
      exact List.Subset.refl _
  | _ => exact absurd h List.not_mem_nil

theorem callables_subset_of_within {s t : Schema} (h : t.Within s) : t.callables ⊆ s.callables := by
  induction h with
  | refl => exact List.Subset.refl _
  | part ht _ ih => exact List.Subset.trans ih (callables_subset_of_part ht)

/-- What is injected is stored. -/
theorem MayInject.callables_subset {s : Schema} {present : List String} {i : Injection} (h : s.MayInject present i) :
    i.default.callables ⊆ s.callables := by
  obtain ⟨-, t, ht, field, hf, -, -, hdefault⟩ := h
  have hpart : field.2.callables ⊆ s.callables :=
    List.Subset.trans (callables_subset_of_part (Rule.mem_parts_of_declared hf)) (callables_subset_of_within ht)
  refine List.Subset.trans ?_ hpart
  obtain ⟨key, default?, rule⟩ := field
  obtain rfl : default? = some i.default := hdefault
  exact List.subset_append_left _ _

end Schema

/-! ## Calls -/

/-- A validation that is asked for: within which limits, of which value, and from which supply on. -/
structure Call where
  limits : Limits
  input : Value
  next : Nat

namespace Call

/-- What becomes of a call. -/
def ran (s : Schema) (c : Call) : Ran Checked := (s.validate c.limits c.input).start c.next

/-- What is left of the value. -/
def output (s : Schema) (c : Call) : Value := (c.ran s).result.value

/-- **Injected callables.** In what is left of the value, `f` is found at or below a key that was not in the value. -/
def Injects (s : Schema) (c : Call) (place : List Segment) (f : Callable) : Prop :=
  (c.output s).Holds place f ∧ ∃ outer key inner fields, place = outer ++ .key key :: inner ∧
    c.input.at? outer = some (.object fields) ∧ key ∉ Fields.keys fields

end Call

/-- **Calls in turn.** From a supply on, each call starts where the one before it has stopped, or later on if other
    callables have come into being in between. Its value may be any value, so also one that earlier calls have left,
    whose callables are there by then. -/
inductive Schema.Calls (s : Schema) : Nat → List Call → Prop
  | nil (next : Nat) : Calls s next []
  | cons {next : Nat} {c : Call} {rest : List Call} (hnext : next ≤ c.next) (hinput : c.input.Old c.next)
      (hrest : Calls s (c.ran s).next rest) : Calls s next (c :: rest)

/-- Nothing stands at or below a key that an object lacks. -/
theorem Call.Injects.at?_input {s : Schema} {c : Call} {place : List Segment} {f : Callable}
    (h : c.Injects s place f) : c.input.at? place = none := by
  obtain ⟨-, outer, key, inner, fields, rfl, houter, hkey⟩ := h
  rw [Value.at?_append, houter, Option.bind_some, Value.at?, Value.item?, Fields.lookup_eq_none_iff_notMem.mpr hkey]
  rfl

namespace Schema

variable {s : Schema}

/-- **One call** clones the callables of the defaults that it injects, and draws one identity for each. -/
theorem cloned (hc : s.CustomFree) (hd : s.DistinctKeys) (c : Call) :
    ∃ journal : List Injection,
      journal.map Injection.event = (c.ran s).events.filter Event.isInjection ∧
      c.input.Journal s.MayInject journal (c.output s) ∧
      (c.ran s).next = c.next + (Injection.originals journal).length ∧
      c.input.Cloned c.next (Injection.originals journal) (c.output s) := by
  have hcourse := (Course.closed_journal s.MayInject).and (Course.closed_cloned s.MayInject)
  obtain ⟨journal, hlog, ⟨hjournal, -⟩, hnext, hcloned⟩ :=
    follows hcourse hc (admitsSlots_mayInject hd) (.root c.limits) c.input c.next
  exact ⟨journal, hlog, hjournal, hnext, hcloned⟩

/-- What a call injects is drawn from its supply, and no identity is drawn for two places. -/
theorem injects_drawn (hc : s.CustomFree) (hd : s.DistinctKeys) {c : Call} {place : List Segment} {f : Callable}
    (h : c.Injects s place f) : (c.next ≤ f.id ∧ f.id < (c.ran s).next) ∧
      ∀ {place' f'}, c.Injects s place' f' → f.id = f'.id → place = place' := by
  obtain ⟨journal, -, -, hnext, hcloned⟩ := cloned hc hd c
  refine ⟨?_, fun h' hid => hcloned.clones.apart ⟨h.at?_input, h.1⟩ ⟨h'.at?_input, h'.1⟩ hid⟩
  rw [hnext]
  exact hcloned.clones.drawn ⟨h.at?_input, h.1⟩

namespace Calls

variable {next : Nat} {calls : List Call}

/-- No call starts before the supply of all calls, and none before its value is there. -/
theorem supplied (hc : s.CustomFree) (hd : s.DistinctKeys) (h : s.Calls next calls) :
    ∀ c ∈ calls, next ≤ c.next ∧ c.input.Old c.next := by
  induction h with
  | nil => exact fun _ hc => absurd hc List.not_mem_nil
  | @cons next first rest hnext hinput _ ih =>
      obtain ⟨journal, -, -, hran, -⟩ := cloned hc hd first
      intro c hmem
      rcases List.mem_cons.mp hmem with rfl | hmem
      · exact ⟨hnext, hinput⟩
      · obtain ⟨hle, hold⟩ := ih c hmem
        exact ⟨by omega, hold⟩

/-- Every call starts after those before it have stopped. -/
theorem pairwise (hc : s.CustomFree) (hd : s.DistinctKeys) (h : s.Calls next calls) :
    calls.Pairwise fun c c' => (c.ran s).next ≤ c'.next := by
  induction h with
  | nil => exact .nil
  | cons _ _ hrest ih => exact .cons (fun c hmem => (hrest.supplied hc hd c hmem).1) ih

end Calls

/-- **Injected callables are never shared.** In calls in turn, take any callable that a call finds a place for at or
    below a key that it injects. It is none of those stored in the schema or given in the value of the call. Its
    identity is that of no other injected callable, of the same call or of another. And it does what the stored
    callable does that it is a clone of: the one that the identity was drawn for, when the callables of the defaults
    were cloned in the order of the log. -/
theorem validate_unshared (hc : s.CustomFree) (hd : s.DistinctKeys) {next : Nat}
    (hstored : ∀ g ∈ s.callables, g.id < next) {calls : List Call} (h : s.Calls next calls) :
    (∀ c ∈ calls, ∃ journal : List Injection,
      journal.map Injection.event = (c.ran s).events.filter Event.isInjection ∧
      c.input.Journal s.MayInject journal (c.output s) ∧
      ∀ place f, c.Injects s place f →
        (∀ g ∈ s.callables ++ c.input.callables, f.same g = false) ∧
        ∃ (k : Nat) (g : Callable), (Injection.originals journal)[k]? = some g ∧ g ∈ s.callables ∧
          f.id = c.next + k ∧ ∀ hooks args, f.call hooks args = g.call hooks args) ∧
    ∀ (j j' : Nat) (c c' : Call) (place place' : List Segment) (f f' : Callable), calls[j]? = some c →
      calls[j']? = some c' → c.Injects s place f → c'.Injects s place' f' → f.same f' = true →
      j = j' ∧ place = place' := by
  refine ⟨fun c hmem => ?_, ?_⟩
  · obtain ⟨hle, hinput⟩ := h.supplied hc hd c hmem
    obtain ⟨journal, hlog, hjournal, -, hcloned⟩ := cloned hc hd c
    refine ⟨journal, hlog, hjournal, fun place f hf => ?_⟩
    obtain ⟨⟨hdrawn, -⟩, -⟩ := injects_drawn hc hd hf
    obtain ⟨k, g, hg, rfl⟩ := hcloned.clones.rebound ⟨hf.at?_input, hf.1⟩
    refine ⟨fun g' hg' => decide_eq_false fun hid => ?_, k, g, hg, ?_, rfl, fun _ _ => rfl⟩
    · rcases List.mem_append.mp hg' with hg' | hg'
      · have hlt := hstored g' hg'
        omega
      · have hlt : g'.id < c.next := hinput g' hg'
        omega
    · obtain ⟨i, hi, hmem⟩ := List.mem_flatMap.mp (List.mem_of_getElem? hg)
      obtain ⟨present, hadmits⟩ := hjournal.admitted i hi
      exact hadmits.callables_subset hmem
  · intro j j' c c' place place' f f' hj hj' hf hf' hsame
    have hid : f.id = f'.id := of_decide_eq_true hsame
    obtain ⟨hdrawn, hapart⟩ := injects_drawn hc hd hf
    obtain ⟨hdrawn', -⟩ := injects_drawn hc hd hf'
    obtain ⟨hlt, rfl⟩ := List.getElem?_eq_some_iff.mp hj
    obtain ⟨hlt', rfl⟩ := List.getElem?_eq_some_iff.mp hj'
    have hordered := List.pairwise_iff_getElem.mp (h.pairwise hc hd)
    -- Two calls draw from supplies that have no identity in common.
    rcases Nat.lt_trichotomy j j' with hlt'' | rfl | hlt''
    · have hstop := hordered j j' hlt hlt' hlt''
      omega
    · exact ⟨rfl, hapart hf' hid⟩
    · have hstop := hordered j' j hlt' hlt hlt''
      omega

/-- A server is injected with two clones of one callable, and a third is injected into the server. The second call is
    given the server that the first one has left, and two other callables have come into being in between. -/
theorem validate_unshared_server :
    let retry : Callable := ⟨0, "retry"⟩
    let server := object [("retry", function.withDefault (.function retry))]
    let hooks := Value.array [.function retry, .function retry]
    let s := object [("server", server.withDefault (.object [("hooks", hooks)])), ("previous", ofKind .object),
      ("mode", oneOf [.function ⟨1, "mode"⟩])]
    let injected := fun next : Nat => Value.object [
      ("hooks", .array [.function ⟨next, "retry"⟩, .function ⟨next + 1, "retry"⟩]),
      ("retry", .function ⟨next + 2, "retry"⟩)]
    let first : Call := ⟨.unlimited, .object [], 2⟩
    let second : Call := ⟨.unlimited, .object [("previous", injected 2)], 7⟩
    s.CustomFree ∧ s.DistinctKeys ∧ (∀ g ∈ s.callables, g.id < 2) ∧ s.Calls 2 [first, second] ∧
      first.output s = .object [("server", injected 2)] ∧
      second.output s = .object [("previous", injected 2), ("server", injected 7)] ∧
      second.Injects s [.key "server", .key "retry"] ⟨9, "retry"⟩ ∧
      (∀ g ∈ s.callables ++ second.input.callables, (Callable.mk 9 "retry").same g = false) ∧
      (∃ g ∈ s.callables, ∀ hooks args, (Callable.mk 9 "retry").call hooks args = g.call hooks args) ∧
      ∀ place place' f f', first.Injects s place f → second.Injects s place' f' → f.same f' = false := by
  intro retry server hooks s injected first second
  have hc : s.CustomFree := by decide
  have hd : s.DistinctKeys := by decide
  have hstored : ∀ g ∈ s.callables, g.id < 2 := by decide
  have hinput : first.input.Old 2 ∧ second.input.Old 7 := by decide
  have hcalls : s.Calls 2 [first, second] :=
    .cons (Nat.le_refl 2) hinput.1 (.cons (by decide) hinput.2 (.nil _))
  have houtputs : first.output s = .object [("server", injected 2)] ∧
      second.output s = .object [("previous", injected 2), ("server", injected 7)] := by
    subst retry server hooks s injected first second
    exact ⟨rfl, rfl⟩
  have hinjects : second.Injects s [.key "server", .key "retry"] ⟨9, "retry"⟩ := by
    refine ⟨?_, [], "server", [.key "retry"], [("previous", injected 2)], rfl, rfl, by decide⟩
    rw [houtputs.2]
    rfl
  obtain ⟨hcall, hapart⟩ := validate_unshared hc hd hstored hcalls
  obtain ⟨journal, -, -, hfound⟩ := hcall second (by simp)
  obtain ⟨hother, k, g, -, hg, -, hclone⟩ := hfound _ _ hinjects
  refine ⟨hc, hd, hstored, hcalls, houtputs.1, houtputs.2, hinjects, hother, ⟨g, hg, hclone⟩, ?_⟩
  intro place place' f f' hf hf'
  refine Bool.eq_false_iff.mpr fun hsame => ?_
  have hindex := (hapart 0 1 first second place place' f f' rfl rfl hf hf' hsame).1
  omega

end Schema

end ConfigSchema
