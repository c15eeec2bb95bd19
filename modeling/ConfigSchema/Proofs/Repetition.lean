import ConfigSchema.Proofs.Alike
import ConfigSchema.Proofs.Growth

/-!
# `Verdict.Repeats` — validating a second time

What a validation leaves is complete: a second validation with the same schema changes nothing, and refuses
again what was refused. This needs that of the alternatives of a choice, and of the parts of a composition,
at most one can inject (`OneInjector`). Otherwise two of them could each complete what the other one left.

The second run may take other turns than the first. An alternative that passed can fail on what it has itself
injected, and then the alternatives after it are asked; these inject nothing, so the value stays. The other
way round is impossible: an injection-free alternative that failed does not pass because the value has grown
(`Conforms.of_growsInto`), so what failed as a whole fails again.

A document that was *accepted* need not be accepted again: nobody asks whether a default that is injected is
itself acceptable, but the second run does judge it. If all defaults are acceptable
(`AcceptsDefaults`), and neither the limits nor a composition interfere, acceptance is repeated too. Both
results are one induction: `Verdict.Repeats firm` asks for repeated acceptance only if `firm` holds.
-/

namespace ConfigSchema

/-- The second verdict leaves what the first one left, accepts nothing that the first one refused, and, if
    `firm`, accepts what the first one accepted. -/
def Verdict.Repeats (firm : Prop) (r r' : Verdict) : Prop :=
  r'.value = r.value ∧ (r'.ok = true → r.ok = true) ∧ (firm → r.ok = true → r'.ok = true)

namespace Verdict

variable {firm : Prop} {r r' : Verdict}

/-- A verdict that is reached again is repeated. -/
theorem Repeats.refl (r : Verdict) : r.Repeats firm r := ⟨rfl, id, fun _ => id⟩

theorem Repeats.of_failed (hv : r'.value = r.value) (hfail : r'.ok = false) (h : firm → r.ok = false) :
    r.Repeats firm r' :=
  ⟨hv, fun hok => absurd hok (Bool.eq_false_iff.mp hfail),
    fun hf hok => absurd hok (Bool.eq_false_iff.mp (h hf))⟩

theorem Repeats.of_ok (hv : r'.value = r.value) (hok : r.ok = true) (h : firm → r'.ok = true) :
    r.Repeats firm r' :=
  ⟨hv, fun _ => hok, fun hf _ => h hf⟩

/-- What failed fails when it is repeated. -/
theorem Repeats.failed (h : r.Repeats firm r') (hfail : r.ok = false) : r'.ok = false :=
  Bool.eq_false_iff.mpr fun hok => Bool.eq_false_iff.mp hfail (h.2.1 hok)

end Verdict

namespace Schema

/-! ## Acceptable defaults -/

/-- Every declared key's schema accepts the copies of its default, as long as they are made with identities
    from `base` on. -/
def AcceptsDefaults (base : Nat) : Schema → Prop :=
  Everywhere fun rule => ∀ field ∈ rule.declared, ∀ d, field.2.default? = some d →
    (field.2.fill (.root .unlimited) d).Ensures base fun c => c.outcome.isOk = true

/-- What acceptance needs in order to be repeated. -/
structure Firm (s : Schema) (base : Nat) (pos : Position) : Prop where
  composeFree : s.ComposeFree
  acceptsDefaults : s.AcceptsDefaults base
  limits : pos.limits = .unlimited
  depth : pos.depth ≤ depthCeiling

variable {firm : Prop} {base : Nat} {pos : Position} {v : Value} {default? : Option Value}

theorem Firm.part {s t : Schema} (h : s.Firm base pos) (ht : t ∈ s.rule.parts) : t.Firm base pos :=
  ⟨h.composeFree.part ht, h.acceptsDefaults.part ht, h.limits, h.depth⟩

theorem Firm.descend {s : Schema} (h : s.Firm base pos) : s.Firm base pos.descend :=
  ⟨h.composeFree, h.acceptsDefaults, h.limits, pos.descend_depth_le⟩

/-- Without a limit, a schema decides alike at all positions. -/
theorem alikeAt_unlimited {s : Schema} (hc : s.CustomFree) {p q : Position} (hp : p.limits = .unlimited)
    (hp' : p.depth ≤ depthCeiling) (hq : q.limits = .unlimited) (hq' : q.depth ≤ depthCeiling) :
    AlikeAt p q s s := by
  refine alikeAt_self hc fun k _ => ?_
  have hdown : ∀ pos : Position, pos.limits = .unlimited → pos.depth ≤ depthCeiling →
      (pos.down k).exceeded = false := by
    intro pos hl hd
    rw [Position.exceeded_down_eq_false_iff k hd, hl]
    exact Nat.min_le_right _ _
  rw [hdown p hp hp', hdown q hq hq']

/-- Where acceptance is repeated, the defaults of the declared keys are accepted. -/
theorem Firm.fill {rule : Rule} (h : Firm ⟨default?, rule⟩ base pos) {field : String × Schema}
    (hf : field ∈ rule.declared) (hc : field.2.CustomFree) {d : Value} (hd : field.2.default? = some d) :
    (field.2.fill pos d).Ensures base fun c => c.verdict.ok = true := by
  have hroot := h.acceptsDefaults.here field hf d hd
  have halike : AlikeAt (.root .unlimited) pos field.2 field.2 :=
    alikeAt_unlimited hc rfl (Nat.zero_le _) h.limits h.depth
  refine Run.Agree.ensures (fill_sameVerdict halike d) hroot fun a b hab hok => ?_
  exact (Checked.verdict_eq_iff.mp hab).1.symm.trans hok

/-! ## Rule by rule -/

/-- Verdicts that are repeated one by one are repeated together. -/
theorem repeats_all {ι κ : Type} {first : ι → Verdict} {second : κ → Verdict} {l : List ι} {m : List κ}
    (h : List.Forall₂ (fun i j => (first i).Repeats firm (second j)) l m) :
    (m.all (fun j => (second j).ok) = true → l.all (fun i => (first i).ok) = true) ∧
      (firm → l.all (fun i => (first i).ok) = true → m.all (fun j => (second j).ok) = true) := by
  constructor
  · intro hm
    exact all_of_forall₂ (h.imp fun _ _ hr => hr.2.1).flip hm
  · intro hf hl
    exact all_of_forall₂ (h.imp fun _ _ hr => hr.2.2 hf) hl

/-- **Every verdict on the value is repeated** by a second validation of what it leaves. -/
def Repeatable (s : Schema) (firm : Prop) (base : Nat) (pos : Position) (v : Value) : Prop :=
  s.Gives base pos v fun r => s.Gives base pos r.value (r.Repeats firm)

/-- A composition whose first part injects nothing: in the second run that part still leaves the value to the
    second part, or fails. -/
theorem repeatable_compose_plain_first {first second : Schema} (hc : first.CustomFree)
    (hfree : first.InjectionFree) (hfirm : ¬ firm) (h : ∀ v, second.Repeatable firm base pos v) :
    Repeatable ⟨default?, .compose first second⟩ firm base pos v := by
  have hfirst := hfree.gives hc base pos
  apply gives_compose (hfirst v)
  · intro r _ _
    refine (h r.value).mono fun r₂ hr₂ => ?_
    apply gives_compose (hfirst r₂.value)
    · intro r' hr' _
      rw [hr'.2]
      exact hr₂
    · intro r' hr' hfail'
      exact .of_failed hr'.2 hfail' fun hf => absurd hf hfirm
  · intro r hr hfail
    rw [hr.2]
    apply gives_compose (hfirst v)
    · intro r' hr' hok'
      exact absurd (hr.1.mpr (hr'.1.mp hok')) (Bool.eq_false_iff.mp hfail)
    · intro r' hr' hfail'
      exact .of_failed (hr'.2.trans hr.2.symm) hfail' fun _ => hfail

/-- A composition whose second part injects nothing: in the second run that part sees what it saw. -/
theorem repeatable_compose_plain_second {first second : Schema} (hc : second.CustomFree)
    (hfree : second.InjectionFree) (hfirm : ¬ firm) (h : ∀ v, first.Repeatable firm base pos v) :
    Repeatable ⟨default?, .compose first second⟩ firm base pos v := by
  have hsecond := hfree.gives hc base pos
  apply gives_compose (h v)
  · intro r hr _
    refine (hsecond r.value).mono fun r₂ hr₂ => ?_
    rw [hr₂.2]
    apply gives_compose hr
    · intro r' hr' _
      rw [hr'.1]
      refine (hsecond r.value).mono fun r'' hr'' => ?_
      have hok : r''.ok = true ↔ r₂.ok = true := hr''.1.trans hr₂.1.symm
      exact ⟨hr''.2.trans hr₂.2.symm, hok.mp, fun _ => hok.mpr⟩
    · intro r' hr' hfail'
      exact .of_failed (hr'.1.trans hr₂.2.symm) hfail' fun hf => absurd hf hfirm
  · intro r hr hfail
    apply gives_compose hr
    · intro r' hr' hok'
      exact absurd (hr'.2.1 hok') (Bool.eq_false_iff.mp hfail)
    · intro r' hr' _
      exact hr'

/-- A choice between injection-free alternatives is injection-free. -/
theorem injectionFree_either {alternatives : List Schema} (h : ∀ s ∈ alternatives, s.InjectionFree) :
    InjectionFree ⟨default?, .either alternatives⟩ :=
  everywhere_iff.mpr ⟨fun _ hf => absurd hf List.not_mem_nil, h⟩

theorem customFree_either {alternatives : List Schema} (h : ∀ s ∈ alternatives, s.CustomFree) :
    CustomFree ⟨default?, .either alternatives⟩ :=
  everywhere_iff.mpr ⟨trivial, h⟩

/-- A choice whose first alternative injects nothing. Where that one failed, it fails in the second run too,
    since the value has only grown. -/
theorem repeatable_either_plain_first {a : Schema} {rest : List Schema} (hc : a.CustomFree)
    (hcrest : ∀ s ∈ rest, s.CustomFree) (hfree : a.InjectionFree)
    (h : ∀ v, Repeatable ⟨none, .either rest⟩ firm base pos v) :
    Repeatable ⟨default?, .either (a :: rest)⟩ firm base pos v := by
  have hfirst := hfree.gives hc base pos
  apply gives_either_cons (hfirst v)
  · intro r hr hok
    rw [hr.2]
    apply gives_either_cons (hfirst v)
    · intro r' hr' hok'
      exact .of_ok (hr'.2.trans hr.2.symm) hok fun _ => hok'
    · intro r' hr' hfail'
      exact absurd (hr'.1.mpr (hr.1.mp hok)) (Bool.eq_false_iff.mp hfail')
  · intro r hr hfail
    rw [hr.2]
    have hcustom : CustomFree ⟨none, .either rest⟩ := customFree_either hcrest
    have hgrows := gives_growsInto hcustom (injectsOnly_true _) base pos v
    refine ((h v).and hgrows).mono fun r₂ hr₂ => ?_
    apply gives_either_cons (hfirst r₂.value)
    · intro r' hr' hok'
      have hconforms : a.Conforms pos.limits.maxDepth pos.depth v := (hr'.1.mp hok').of_growsInto hr₂.2
      exact absurd (hr.1.mpr hconforms) (Bool.eq_false_iff.mp hfail)
    · intro r' hr' _
      rw [hr'.2]
      exact hr₂.1

/-- A choice whose other alternatives inject nothing: they see in the second run what they saw in the first. -/
theorem repeatable_either_plain_rest {a : Schema} {rest : List Schema} (hcrest : ∀ s ∈ rest, s.CustomFree)
    (hfree : ∀ s ∈ rest, s.InjectionFree) (h : ∀ v, a.Repeatable firm base pos v) :
    Repeatable ⟨default?, .either (a :: rest)⟩ firm base pos v := by
  have hplain : InjectionFree ⟨none, .either rest⟩ := injectionFree_either hfree
  have hrest := hplain.gives (customFree_either hcrest) base pos
  apply gives_either_cons (h v)
  · intro r hr hok
    apply gives_either_cons hr
    · intro r' hr' _
      exact hr'
    · intro r' hr' hfail'
      refine (hrest r'.value).mono fun r'' hr'' => .of_ok (hr''.2.trans hr'.1) hok fun hf => ?_
      exact absurd (hr'.2.2 hf hok) (Bool.eq_false_iff.mp hfail')
  · intro r hr hfail
    refine (hrest r.value).mono fun r₂ hr₂ => ?_
    rw [hr₂.2]
    apply gives_either_cons hr
    · intro r' hr' hok'
      exact absurd (hr'.2.1 hok') (Bool.eq_false_iff.mp hfail)
    · intro r' hr' _
      rw [hr'.1]
      refine (hrest r.value).mono fun r'' hr'' => ?_
      have hok : r''.ok = true ↔ r₂.ok = true := hr''.1.trans hr₂.1.symm
      exact ⟨hr''.2.trans hr₂.2.symm, hok.mp, fun _ => hok.mpr⟩

/-- A choice, along its list of alternatives. -/
theorem repeatable_either {alternatives : List Schema} (hc : ∀ s ∈ alternatives, s.CustomFree)
    (hone : alternatives.Pairwise fun s t => s.InjectionFree ∨ t.InjectionFree)
    (h : ∀ s ∈ alternatives, ∀ v, s.Repeatable firm base pos v) :
    Repeatable ⟨default?, .either alternatives⟩ firm base pos v := by
  induction alternatives generalizing default? v with
  | nil => exact gives_either_nil (gives_either_nil (.refl _))
  | cons a rest ih =>
      rw [List.pairwise_cons] at hone
      have hcrest : ∀ s ∈ rest, s.CustomFree := fun s hs => hc s (List.mem_cons_of_mem a hs)
      by_cases hfree : a.InjectionFree
      · refine repeatable_either_plain_first (hc a List.mem_cons_self) hcrest hfree fun w => ?_
        exact ih hcrest hone.2 fun s hs => h s (List.mem_cons_of_mem a hs)
      · -- Then all the others are injection-free.
        have hfrees : ∀ s ∈ rest, s.InjectionFree := fun s hs => (hone.1 s hs).resolve_left hfree
        exact repeatable_either_plain_rest hcrest hfrees (h a List.mem_cons_self)

theorem repeatable_array {element : Schema} (h : ∀ v, element.Repeatable firm base pos.descend v) :
    Repeatable ⟨default?, .array element⟩ firm base pos v := by
  refine gives_array (fun hv => gives_refused rfl hv (.refl _)) h ?_
  intro items hitems hpos rs hrs
  refine gives_array_map (R := Verdict.Repeats firm) hpos (fun r hr => ?_) fun rs' hrs' => ?_
  · obtain ⟨x, -, hagain⟩ := exists_of_forall₂_right hrs hr
    exact hagain
  · have hall := repeats_all hrs'
    exact ⟨Verdict.ofElements_value (hrs'.imp fun _ _ hr => hr.1), hall.1, hall.2⟩

/-- The verdict on an entry is repeated by the governor of its key; without a governor the entry has passed. -/
def EntryRepeats (rule : Rule) (firm : Prop) (base : Nat) (pos : Position) (key : String) (r : Verdict) : Prop :=
  (∀ s, rule.governor? key = some s → s.Gives base pos r.value (r.Repeats firm)) ∧
    (rule.governor? key = none → r.ok = true)

/-- Copies of a default that are repeatable are repeated, when they are accepted as injected entries. -/
theorem ensures_fill_repeats {s : Schema} {d : Value} (h : ∀ v, s.Repeatable firm base pos v)
    (hfill : firm → (s.fill pos d).Ensures base fun c => c.verdict.ok = true) :
    (s.fill pos d).Ensures base fun c => s.Gives base pos c.value ((Verdict.mk true c.value).Repeats firm) := by
  have hagain : (s.fill pos d).Ensures base fun c =>
      s.Gives base pos c.verdict.value (c.verdict.Repeats firm) :=
    Gives.fill h fun _ _ hr => hr
  by_cases hfirm : firm
  · refine (hagain.and (hfill hfirm)).mono fun c hc => ?_
    exact hc.1.mono fun r' hr' => .of_ok hr'.1 rfl fun _ => hr'.2.2 hfirm hc.2
  · refine hagain.mono fun c hc => ?_
    exact hc.mono fun r' hr' => .of_ok hr'.1 rfl fun hf => absurd hf hfirm

/-- The second run over an object that lacks nothing, if the verdicts on its entries are repeated. -/
theorem gives_keyed_again {rule : Rule} {items : List (String × Verdict)} (hrule : rule.IsKeyed)
    (hpos : pos.exceeded = false) (h : ∀ i ∈ items, EntryRepeats rule firm base pos.descend i.1 i.2)
    (hcompleted : ∀ field ∈ rule.declared, field.2.default?.isSome →
      field.1 ∈ Fields.keys (items.map fun i => (i.1, i.2.value))) :
    Gives ⟨default?, rule⟩ base pos (.object (items.map fun i => (i.1, i.2.value)))
      ((Verdict.mk (items.all fun i => i.2.ok) (.object (items.map fun i => (i.1, i.2.value)))).Repeats firm) := by
  refine gives_object_map (R := fun i r => i.2.Repeats firm r) (A := fun _ _ => True) hrule hpos
    (fun i hi => (h i hi).1) ?_ ?_ ?_
  · exact fun i hi hnone => .of_ok rfl ((h i hi).2 hnone) fun _ => rfl
  · intro field hf habsent d hdefault
    exact absurd (hcompleted field hf (hdefault ▸ rfl)) habsent
  · intro rs' added' hrs' hadded'
    rw [Rule.lacking_eq_nil hcompleted, List.forall₂_nil_left_iff] at hadded'
    have hvalues : List.Forall₂ (fun i r => (r.1, r.2.value) = (i.1, i.2.value)) items rs' :=
      hrs'.imp fun _ _ hr => Prod.ext hr.1 hr.2.1
    have hall := repeats_all (hrs'.imp fun _ _ hr => hr.2)
    refine ⟨?_, hall.1, hall.2⟩
    rw [hadded', Verdict.ofEntries_value hvalues, List.append_nil]

/-- An object: the entries of the second run are those of the first and those that the first has added. So
    nothing is lacking any more. -/
theorem repeatable_keyed {rule : Rule} (hrule : rule.IsKeyed) (hd : (Fields.keys rule.declared).Nodup)
    (h : ∀ t ∈ rule.parts, ∀ v, t.Repeatable firm base pos.descend v)
    (hfill : firm → ∀ field ∈ rule.declared, ∀ d, field.2.default? = some d →
      (field.2.fill pos.descend d).Ensures base fun c => c.verdict.ok = true) :
    Repeatable ⟨default?, rule⟩ firm base pos v := by
  -- A judged entry is judged again by its governor, and an added one by the schema it is declared with.
  let A : String × Schema → Value → Prop := fun field a =>
    field.2.Gives base pos.descend a ((Verdict.mk true a).Repeats firm)
  refine gives_object (R := fun e r => EntryRepeats rule firm base pos.descend e.1 r) (A := A) hrule
    (fun hv => gives_refused (Rule.container?_of_isKeyed hrule) hv (.refl _)) ?_ ?_ ?_ ?_
  · intro e s hs
    refine (h s (Rule.mem_parts_of_governor hs) e.2).mono fun r hr => ⟨fun t ht => ?_, fun hnone => ?_⟩
    · obtain rfl := Option.some.inj (hs.symm.trans ht)
      exact hr
    · exact absurd (hs.symm.trans hnone) (Option.some_ne_none s)
  · intro e he
    exact ⟨fun s hs => absurd (hs.symm.trans he) (Option.some_ne_none s), fun _ => rfl⟩
  · intro field hf d hdefault
    exact ensures_fill_repeats (h field.2 (Rule.mem_parts_of_declared hf)) fun hfirm => hfill hfirm field hf d hdefault
  · intro fields _ hpos rs added hrs hadded
    have hcompleted : ∀ field ∈ rule.declared, field.2.default?.isSome →
        field.1 ∈ Fields.keys (rs.map (fun r => (r.1, r.2.value)) ++ added) :=
      fun _ hf => mem_keys_completed (A := A) hrs hadded hf
    -- The entries of the second run, with their verdicts in the first.
    let items : List (String × Verdict) := rs ++ added.map fun a => (a.1, ⟨true, a.2⟩)
    have hitems : rs.map (fun r => (r.1, r.2.value)) ++ added = items.map fun i => (i.1, i.2.value) := by
      rw [List.map_append, List.map_map]
      exact congrArg _ (List.map_id' added).symm
    have hok : items.all (fun i => i.2.ok) = rs.all fun r => r.2.ok := by simp [items]
    rw [Verdict.ofEntries, hitems, ← hok]
    rw [hitems] at hcompleted
    refine gives_keyed_again hrule hpos (fun i hi => ?_) hcompleted
    rcases List.mem_append.mp hi with hi | hi
    · obtain ⟨e, -, hkey, hR⟩ := exists_of_forall₂_right hrs hi
      exact hkey ▸ hR
    · obtain ⟨a, ha, rfl⟩ := List.mem_map.mp hi
      obtain ⟨field, hf, hkey, hA⟩ := exists_of_forall₂_right hadded ha
      have hgov := Rule.governor?_of_declared hd (Rule.mem_lacking_iff.mp hf).1
      refine ⟨fun s hs => ?_, fun _ => rfl⟩
      rw [← hkey, hs, Option.some.injEq] at hgov
      exact hgov ▸ hA

/-! ## Validating twice -/

/-- **Every verdict is repeated**, where choices and compositions do not interfere with injections. -/
theorem repeatable {s : Schema} (hc : s.CustomFree) (hone : s.OneInjector) (hd : s.DistinctKeys)
    (hfirm : firm → s.Firm base pos) (v : Value) : s.Repeatable firm base pos v := by
  induction s using Schema.induction generalizing pos v with
  | step s ih =>
    obtain ⟨default?, rule⟩ := s
    have hhere : ∀ t ∈ rule.parts, ∀ v, t.Repeatable firm base pos v := fun t ht v =>
      ih t ht (hc.part ht) (hone.part ht) (hd.part ht) (fun hf => (hfirm hf).part ht) v
    have hbelow : ∀ t ∈ rule.parts, ∀ v, t.Repeatable firm base pos.descend v := fun t ht v =>
      ih t ht (hc.part ht) (hone.part ht) (hd.part ht) (fun hf => (hfirm hf).descend.part ht) v
    have hfill : firm → ∀ field ∈ rule.declared, ∀ d, field.2.default? = some d →
        (field.2.fill pos.descend d).Ensures base fun c => c.verdict.ok = true :=
      fun hf field hfield d hdefault =>
        (hfirm hf).descend.fill hfield (hc.part (Rule.mem_parts_of_declared hfield)) hdefault
    cases rule with
    | any => exact gives_any (gives_any (.refl _))
    | kind k => exact gives_kind (gives_kind (.refl _))
    | int => exact gives_int (gives_int (.refl _))
    | oneOf literals => exact gives_oneOf (gives_oneOf (.refl _))
    | compose first second =>
        have hfirst : first ∈ [first, second] := List.mem_cons_self
        have hsecond : second ∈ [first, second] := List.mem_cons_of_mem _ List.mem_cons_self
        have hnever : ¬ firm := fun hf => (hfirm hf).composeFree.here
        rcases hone.here with hfree | hfree
        · exact repeatable_compose_plain_first (hc.part hfirst) hfree hnever (hhere second hsecond)
        · exact repeatable_compose_plain_second (hc.part hsecond) hfree hnever (hhere first hfirst)
    | array element => exact repeatable_array (hbelow element List.mem_cons_self)
    | object fields suggest => exact repeatable_keyed trivial hd.here hbelow hfill
    | objects advice specifics element => exact repeatable_keyed trivial hd.here hbelow hfill
    | either alternatives => exact repeatable_either (fun t ht => hc.part ht) hone.here hhere
    | deprecated inner notice =>
        have hinner := hhere inner List.mem_cons_self v
        exact gives_deprecated (hinner.mono fun r hr => gives_deprecated hr)
    | custom name check => exact absurd hc.here id

/-- **Validation is idempotent.** A second validation under the same limits leaves exactly what the first one
    left, the identities of callables included, and it is not ok if the first one was not. -/
theorem validate_idempotent {s : Schema} (hc : s.CustomFree) (hone : s.OneInjector) (hd : s.DistinctKeys)
    (limits : Limits) (v : Value) (next next' : Nat) :
    let first := ((s.validate limits v).start next).result
    let second := ((s.validate limits first.value).start next').result
    second.value = first.value ∧ (first.outcome.isOk = false → second.outcome.isOk = false) := by
  intro first second
  have hfirst : s.Repeatable False 0 (.root limits) v := repeatable hc hone hd False.elim v
  have hsecond := (hfirst next (Nat.zero_le next)).1 next' (Nat.zero_le next')
  exact ⟨hsecond.1.1, hsecond.1.failed⟩

/-- A choice one alternative of which injects a default, inside an object that injects one itself. -/
theorem validate_idempotent_logger :
    let s := object [("host", string.withDefault (.string "h")),
      ("log", either [string, object [("level", string.withDefault (.string "info"))]])]
    let v := Value.object [("log", .object [])]
    let completed := Value.object [("log", .object [("level", .string "info")]), ("host", .string "h")]
    s.CustomFree ∧ s.OneInjector ∧ s.DistinctKeys ∧
      ((s.validate .strict v).start 0).result.value = completed ∧
      ((s.validate .strict completed).start 0).result.value = completed := by
  intro s v completed
  have hc : s.CustomFree := by decide
  have hone : s.OneInjector := by decide
  have hd : s.DistinctKeys := by decide
  exact ⟨hc, hone, hd, rfl, (validate_idempotent hc hone hd .strict v 0 0).1⟩

/-- **An accepted document stays accepted.** Where the defaults of the declared keys are acceptable, what an
    ok validation without limits leaves is ok again. -/
theorem isOk_validate_again {s : Schema} (hc : s.CustomFree) (hcompose : s.ComposeFree) (hone : s.OneInjector)
    (hd : s.DistinctKeys) {base : Nat} (hdefaults : s.AcceptsDefaults base) (v : Value) {next next' : Nat}
    (hnext : base ≤ next) (hnext' : base ≤ next') :
    let first := ((s.validate .unlimited v).start next).result
    let second := ((s.validate .unlimited first.value).start next').result
    first.outcome.isOk = true → second.outcome.isOk = true := by
  intro first second hok
  have hfirm : s.Firm base (.root .unlimited) := ⟨hcompose, hdefaults, rfl, Nat.zero_le _⟩
  have hfirst : s.Repeatable True base (.root .unlimited) v := repeatable hc hone hd (fun _ => hfirm) v
  have hsecond := (hfirst next hnext).1 next' hnext'
  exact hsecond.1.2.2 trivial hok

/-- The choice settles on the alternative that injects, in the first run and in the second. -/
theorem isOk_validate_again_logger :
    let s := either [string, object [("level", string.withDefault (.string "info"))]]
    let completed := Value.object [("level", .string "info")]
    s.CustomFree ∧ s.ComposeFree ∧ s.OneInjector ∧ s.DistinctKeys ∧ s.AcceptsDefaults 0 ∧ 0 ≤ 0 ∧
      ((s.validate .unlimited (.object [])).start 0).result.value = completed ∧
      ((s.validate .unlimited (.object [])).start 0).result.outcome.isOk = true ∧
      ((s.validate .unlimited completed).start 0).result.outcome.isOk = true := by
  intro s completed
  have hc : s.CustomFree := by decide
  have hcompose : s.ComposeFree := by decide
  have hone : s.OneInjector := by decide
  have hd : s.DistinctKeys := by decide
  have hdefaults : s.AcceptsDefaults 0 := by
    have hlevel : (fill (string.withDefault (.string "info")) (.root .unlimited) (.string "info")).Ensures 0
        fun c => c.outcome.isOk = true := fun next hn => ⟨rfl, hn⟩
    simpa [s, AcceptsDefaults, Everywhere, Rule.Everywhere, EverywhereInFields, EverywhereInList, object,
      objectWith, withDefault, either, string, ofKind, ofRule, Rule.declared] using hlevel
  have hok : ((s.validate .unlimited (.object [])).start 0).result.outcome.isOk = true := rfl
  have hagain := isOk_validate_again hc hcompose hone hd hdefaults (.object []) (Nat.le_refl 0) (Nat.le_refl 0) hok
  exact ⟨hc, hcompose, hone, hd, hdefaults, Nat.le_refl 0, rfl, hok, hagain⟩

end Schema

end ConfigSchema
