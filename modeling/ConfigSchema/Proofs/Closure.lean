import ConfigSchema.Proofs.Restrictions
import ConfigSchema.Proofs.Verdict

/-!
# `Checker.Closed` — what the combinators keep, all schemas have

The checks of schemas are put together from a few combinators. So a property of checkers that each combinator keeps is
a property of the check of every schema, if only what is not put together has it: the literals of the schema and its
custom checks. This induction over schemas is made here, once, and `Checker.Closed.check` is what it yields.

A property that speaks of the injections of an object also asks something of its slots, and this is `Q`. Where it does
not, `Q` is `fun _ => True`.
-/

namespace ConfigSchema

open Checker

/-- **The combinators keep `P`**, as far as the slots of objects satisfy `Q`. -/
structure Checker.Closed (P : Checker → Prop) (Q : List Slot → Prop) : Prop where
  accept : P accept
  ofKind : ∀ k expected, P (ofKind k expected)
  andThen : ∀ {first second}, P first → P second → P (andThen first second)
  firstOf : ∀ expected {checks}, (∀ check ∈ checks, P check) → P (firstOf expected checks)
  advising : ∀ warning {check}, P check → P (advising warning check)
  elements : ∀ {element}, P element → P (elements element)
  entries : ∀ {checkOf slots}, (∀ key, P (checkOf key)) → (∀ slot ∈ slots, P slot.check) → Q slots →
    P (entries checkOf slots)

/-- What a rule has to bring along: its literals and its custom check satisfy `P`, and its slots `Q`. -/
def Rule.Brings (P : Checker → Prop) (Q : List Slot → Prop) : Rule → Prop
  | .oneOf literals => P (literal literals (literalsName literals))
  | .custom _ check => P fun pos v => check pos.remaining v
  | rule => Q (Schema.slots rule.declared)

/-- **What the combinators keep, the check of a schema has.** -/
theorem Checker.Closed.check {P : Checker → Prop} {Q : List Slot → Prop} (h : Closed P Q) {s : Schema}
    (hs : s.Everywhere (Rule.Brings P Q)) : P s.check := by
  induction s using Schema.induction with
  | step s ih =>
    obtain ⟨default?, rule⟩ := s
    have ihp : ∀ t ∈ rule.parts, P t.check := fun t ht => ih t ht (hs.part ht)
    -- Closed and open objects choose the checks of their entries differently, but all among the same ones.
    have hkeyed : rule.IsKeyed → Q (Schema.slots rule.declared) → P rule.check := by
      intro hrule hslots
      rw [Rule.check_of_isKeyed hrule]
      refine h.entries (fun key => ?_) (fun slot hslot => ?_) hslots
      · exact Rule.keyCheck_cases hrule key h.accept ihp fun warning _ => h.advising warning
      · rw [Schema.slots_eq_map] at hslot
        obtain ⟨field, hf, rfl⟩ := List.mem_map.mp hslot
        exact ihp field.2 (Rule.mem_parts_of_declared hf)
    rw [Schema.check_eq]
    cases rule with
    | any => exact h.accept
    | kind k => exact h.ofKind k k.name
    | int => exact h.ofKind .number "int"
    | oneOf literals => exact hs.here
    | compose first second =>
        have hsecond : second ∈ [first, second] := List.mem_cons_of_mem _ List.mem_cons_self
        exact h.andThen (ihp first List.mem_cons_self) (ihp second hsecond)
    | array element => exact h.elements (ihp element List.mem_cons_self)
    | object fields suggest => exact hkeyed trivial hs.here
    | objects advice specifics element => exact hkeyed trivial hs.here
    | either alternatives =>
        refine h.firstOf _ fun check hcheck => ?_
        rw [Schema.checks_eq_map] at hcheck
        obtain ⟨t, ht, rfl⟩ := List.mem_map.mp hcheck
        exact ihp t ht
    | deprecated inner notice => exact h.advising notice (ihp inner List.mem_cons_self)
    | custom name check => exact hs.here

/-- A property that all literals have and that asks nothing of slots is one of every schema without custom checks. -/
theorem Checker.Closed.check_of_customFree {P : Checker → Prop} (h : Closed P fun _ => True)
    (hliteral : ∀ literals expected, P (literal literals expected)) {s : Schema} (hc : s.CustomFree) : P s.check := by
  refine h.check (hc.mono fun rule hrule => ?_)
  cases rule with
  | oneOf literals => exact hliteral literals _
  | custom name check => exact absurd hrule id
  | _ => exact trivial

end ConfigSchema
