import ConfigSchema.Proofs.Accounting
import ConfigSchema.Proofs.Growth

/-!
# `Schema.either` — a choice and its alternatives

One expects a choice to accept what one of its alternatives would have accepted on its own. But the
alternatives are tried on one and the same value, and a refusal does not undo what was injected before it. So
an alternative may be asked about a value that is not the document any more, and then the choice may refuse
what an alternative accepts, and accept what none of them accepts (`isOk_either_disturbed`).

This is all that can go wrong. As long as no alternative, the last one apart, refuses the document and yet
writes to it, a choice accepts exactly what some alternative accepts (`isOk_either_iff`). For then the
alternatives all see the document, and they draw from the same supply, since nothing was injected
(`next_eq_of_value_eq`). If the alternatives make their own decisions before they inject (`PlainChoices`), a
choice can still be disturbed, but only into refusing: what is accepted of a grown value was acceptable before
(`exists_isOk_of_isOk_either`).
-/

namespace ConfigSchema

open Checker

/-! ## Undisturbed choices -/

/-- Where a check that fails leaves the value and the supply for the next one as they were, the first check
    that passes is there if any is. -/
theorem Checker.isOk_firstOf_iff (expected : String) {checks : List Checker} {pos : Position} {v : Value}
    {next : Nat}
    (h : ∀ c ∈ checks.dropLast, ((c pos v).start next).result.outcome.isOk = false →
      ((c pos v).start next).result.value = v ∧ ((c pos v).start next).next = next) :
    ((firstOf expected checks pos v).start next).result.outcome.isOk = true ↔
      ∃ c ∈ checks, ((c pos v).start next).result.outcome.isOk = true := by
  induction checks with
  | nil =>
      constructor
      · intro hok
        exact absurd hok Bool.false_ne_true
      · rintro ⟨c, hc, -⟩
        exact absurd hc List.not_mem_nil
  | cons c rest ih =>
      rw [List.exists_mem_cons_iff, firstOf, Run.start_bind]
      by_cases hok : ((c pos v).start next).result.outcome.isOk = true
      · rw [if_pos hok]
        exact iff_of_true hok (.inl hok)
      · rw [if_neg hok]
        cases rest with
        | nil =>
            refine iff_of_false Bool.false_ne_true ?_
            rintro (hc | ⟨c', hc', -⟩)
            · exact hok hc
            · exact absurd hc' List.not_mem_nil
        | cons c' rest =>
            obtain ⟨hvalue, hnext⟩ := h c List.mem_cons_self (Bool.eq_false_iff.mpr hok)
            -- The others start where this one has started.
            rw [hvalue, hnext, or_iff_right hok]
            exact ih fun d hd => h d (List.mem_cons_of_mem c hd)

namespace Schema

variable {base : Nat} {pos : Position} {v : Value} {default? : Option Value}

/-- **A choice accepts exactly what some alternative accepts**, provided that no alternative, the last one
    apart, refuses the document and yet writes to it. Each alternative is validated on the document itself. -/
theorem isOk_either_iff {alternatives : List Schema} (hc : ∀ s ∈ alternatives, s.CustomFree) (limits : Limits)
    (v : Value) (next : Nat)
    (hquiet : ∀ s ∈ alternatives.dropLast, ((s.validate limits v).start next).result.outcome.isOk = false →
      ((s.validate limits v).start next).result.value = v) :
    (((either alternatives).validate limits v).start next).result.outcome.isOk = true ↔
      ∃ s ∈ alternatives, ((s.validate limits v).start next).result.outcome.isOk = true := by
  have hcheck : (either alternatives).check =
      firstOf (alternativesName (names alternatives)) (alternatives.map check) := by
    rw [check_eq, ← checks_eq_map]
    rfl
  unfold validate
  rw [hcheck, isOk_firstOf_iff]
  · simp only [List.mem_map, exists_exists_and_eq_and]
  · intro c hdrop hfail
    rw [← List.map_dropLast] at hdrop
    obtain ⟨s, hs, rfl⟩ := List.mem_map.mp hdrop
    have hvalue := hquiet s hs hfail
    exact ⟨hvalue, next_eq_of_value_eq (hc s (List.dropLast_subset _ hs)) hvalue⟩

/-- The first alternative injects into objects, but refuses the document at once. -/
theorem isOk_either_iff_options :
    let s := object [("mode", string.withDefault (.string "fast"))]
    let v := Value.array [.string "fast"]
    (∀ t ∈ [s, array string], t.CustomFree) ∧
      (∀ t ∈ [s, array string].dropLast, ((t.validate .strict v).start 0).result.outcome.isOk = false →
        ((t.validate .strict v).start 0).result.value = v) ∧
      (((either [s, array string]).validate .strict v).start 0).result.outcome.isOk = true := by
  intro s v
  have hc : ∀ t ∈ [s, array string], t.CustomFree := by decide
  have hquiet : ∀ t ∈ [s, array string].dropLast,
      ((t.validate .strict v).start 0).result.outcome.isOk = false →
        ((t.validate .strict v).start 0).result.value = v := by
    intro t ht _
    obtain rfl := List.mem_singleton.mp ht
    rfl
  have harray : array string ∈ [s, array string] := List.mem_cons_of_mem _ List.mem_cons_self
  exact ⟨hc, hquiet, (isOk_either_iff hc .strict v 0 hquiet).mpr ⟨array string, harray, rfl⟩⟩

/-! ## Disturbed choices -/

/-- **A failed alternative disturbs those behind it.** A choice can refuse what an alternative accepts, and
    accept what no alternative accepts. -/
theorem isOk_either_disturbed :
    let first := object [("mode", string.withDefault (.string "fast")), ("host", string)]
    let second := object [("mode", int), ("host", any)]
    let safe := object [("mode", string.withDefault (.string "safe")), ("host", any)]
    let third := compose safe (object [("mode", oneOf [.string "fast"]), ("host", any)])
    let v := Value.object [("host", .null)]
    let ok (s : Schema) := ((s.validate .strict v).start 0).result.outcome.isOk
    (∀ s ∈ [first, second, third], s.CustomFree) ∧
      (ok first = false ∧ ok second = true ∧ ok (either [first, second]) = false) ∧
      (ok first = false ∧ ok third = false ∧ ok (either [first, third]) = true) := by
  decide

/-- What a choice accepts of a value that `v` has grown into, some alternative demands of `v`. -/
theorem gives_either_conforms {alternatives : List Schema} (hc : ∀ s ∈ alternatives, s.CustomFree)
    (hp : ∀ s ∈ alternatives, s.PlainChoices) {w : Value} (hw : v.GrowsInto (fun _ => True) w) :
    Gives ⟨default?, .either alternatives⟩ base pos w
      fun r => r.ok = true → ∃ s ∈ alternatives, s.Conforms pos.limits.maxDepth pos.depth v := by
  induction alternatives generalizing default? w with
  | nil => exact gives_either_nil fun hf => absurd hf Bool.false_ne_true
  | cons a rest ih =>
      have hca : a.CustomFree := hc a List.mem_cons_self
      have hdecides := gives_decides hca (hp a List.mem_cons_self) base pos w
      have hgrows := gives_growsInto hca (injectsOnly_true a) base pos w
      apply gives_either_cons (hdecides.and hgrows)
      · intro r hr hok _
        exact ⟨a, List.mem_cons_self, (hr.1.1.mp hok).of_growsInto hw⟩
      · intro r hr _
        have hrest : Gives ⟨none, .either rest⟩ base pos r.value
            fun r' => r'.ok = true → ∃ s ∈ rest, s.Conforms pos.limits.maxDepth pos.depth v :=
          ih (fun s hs => hc s (List.mem_cons_of_mem a hs)) (fun s hs => hp s (List.mem_cons_of_mem a hs))
            (hw.trans hr.2)
        refine hrest.mono fun r' hr' hok => ?_
        obtain ⟨s, hs, hconforms⟩ := hr' hok
        exact ⟨s, List.mem_cons_of_mem a hs, hconforms⟩

/-- **A choice between plain alternatives accepts nothing that all of them refuse.** Whatever failed
    alternatives have injected, it only ever makes the others refuse. -/
theorem exists_isOk_of_isOk_either {alternatives : List Schema} (hc : ∀ s ∈ alternatives, s.CustomFree)
    (hp : ∀ s ∈ alternatives, s.PlainChoices) (limits : Limits) (v : Value) (next next' : Nat)
    (hok : (((either alternatives).validate limits v).start next).result.outcome.isOk = true) :
    ∃ s ∈ alternatives, ((s.validate limits v).start next').result.outcome.isOk = true := by
  have hconforms : Gives ⟨none, .either alternatives⟩ 0 (.root limits) v
      fun r => r.ok = true → ∃ s ∈ alternatives, s.Conforms limits.maxDepth 0 v :=
    gives_either_conforms hc hp (.refl v)
  obtain ⟨s, hs, h⟩ := (hconforms next (Nat.zero_le next)).1 hok
  have hdecides := gives_decides (hc s hs) (hp s hs) 0 (.root limits) v
  exact ⟨s, hs, (hdecides next' (Nat.zero_le next')).1.1.mpr h⟩

end Schema

end ConfigSchema
