import ConfigSchema.Proofs.Reordering

/-!
# `Schema.validate_reordered` — the order of keys does not matter

A validation goes through the entries of an object in their order, and draws the identities of injected callables as it
goes. Nothing that it reports or leaves depends on that order, but for the order in which entries are reported and left,
and for which of the fresh identities a callable gets. So it is at every depth, for the warnings as for the verdict, and
also where a failed alternative or the first part of a composition has injected something that others then see.

The proof compares two runs on values that match (`Value.Matches`), from two supplies of fresh identities. Each checker
turns matching values into matching answers (`Checker.Orderless`), where the relation on what is left has to be the one
on what is given, for the next checker starts from it.
-/

namespace ConfigSchema

open Checker

/-! ## Two runs through one list in two orders -/

/-- **One after another, in another order.** Each run of the one list coincides with one of the other list, whatever runs
    before it. So the results are those of the one list in another order. -/
theorem Run.CoincideFrom.mapM_shuffled {α β γ δ : Type} {base : Nat} {S : α → β → Prop} {same : γ → δ → Prop}
    {f : α → Run γ} {g : β → Run δ} {l : List α} {l' : List β} (hl : Shuffled S l l')
    (hf : ∀ a b, S a b → CoincideFrom base same (f a) (g b)) :
    CoincideFrom base (Shuffled same) (l.mapM f) (l'.mapM g) := by
  -- Each result is one that its own run yields from some supply; which runs came before is not said any more.
  have hleft : (l.mapM f).Ensures base (List.Forall₂ (fun a c => (f a).Yields base c) l) := by
    refine Ensures.mapM fun a ha => ?_
    obtain ⟨b, -, hab⟩ := hl.exists_left ha
    exact (hf a b hab).left.yields
  have hright : (l'.mapM g).Ensures base (List.Forall₂ (fun b d => (g b).Yields base d) l') := by
    refine Ensures.mapM fun b hb => ?_
    obtain ⟨a, -, hab⟩ := hl.exists_right hb
    exact (hf a b hab).right.yields
  refine of_ensures hleft hright fun cs ds hcs hds => ?_
  exact hl.comp hcs hds fun a b c d hc hab hd => (hf a b hab).of_yields hc hd

/-- Two copies of one value match, whatever identities they have got. -/
theorem Value.coincide_deepCopy (base : Nat) (v : Value) :
    Run.CoincideFrom base (Value.Matches base) v.deepCopy v.deepCopy := by
  have hforget := v.ensures_forget_deepCopy base
  exact .of_ensures hforget hforget fun copy copy' h h' => .of_forget_eq (h.trans h'.symm)

/-! ## Orderless checkers -/

/-- **The answers match**: both the outcomes and the values that are left. -/
def Checked.Matches (base : Nat) (c c' : Checked) : Prop :=
  c.outcome.Matches base c'.outcome ∧ c.value.Matches base c'.value

namespace Checker

/-- **Orderlessness.** To values that match, the check gives answers that match. -/
def Orderless (base : Nat) (check : Checker) : Prop :=
  ∀ pos v v', v.Matches base v' → Run.CoincideFrom base (Checked.Matches base) (check pos v) (check pos v')

variable {base : Nat} {check first second element : Checker} {pos : Position}

/-! ### Scalars and combinations -/

theorem orderless_accept : accept.Orderless base := fun _ _ _ h => .pure ⟨.passed none, h⟩

theorem orderless_reject (expected : String) : (reject expected).Orderless base :=
  fun _ _ _ h => .pure ⟨.failed expected none h, h⟩

/-- A test that does not see the order of keys is orderless. -/
theorem orderless_test (test : Value → Prop) [DecidablePred test] (expected : String)
    (htest : ∀ v v', v.Matches base v' → (test v' ↔ test v)) :
    Orderless base fun pos v => if test v then accept pos v else reject expected pos v := by
  intro pos v v' h
  simp only [htest v v' h]
  split
  · exact orderless_accept pos v v' h
  · exact orderless_reject expected pos v v' h

theorem orderless_ofKind (k : Kind) (expected : String) : (ofKind k expected).Orderless base :=
  orderless_test (fun v => v.kind = k) expected fun v v' h => by rw [h.kind_eq]

theorem orderless_literal {literals : List Value} (hold : ∀ l ∈ literals, l.Old base) (expected : String) :
    (literal literals expected).Orderless base := by
  refine orderless_test (fun v => (literals.any fun l => l.strictEq v) = true) expected fun v v' h => ?_
  rw [List.any_eq_true, List.any_eq_true]
  refine exists_congr fun l => and_congr_right fun hl => ?_
  rw [h.strictEq_eq (hold l hl)]

theorem Orderless.advising (warning : String) (h : check.Orderless base) : (advising warning check).Orderless base := by
  intro pos v v' hv
  refine Run.CoincideFrom.bind (h pos v v' hv) fun c c' hc => Run.CoincideFrom.pure ?_
  exact ⟨hc.1.appendWarning warning, hc.2⟩

theorem Orderless.andThen (hfirst : first.Orderless base) (hsecond : second.Orderless base) :
    (andThen first second).Orderless base := by
  intro pos v v' hv
  refine Run.CoincideFrom.bind (hfirst pos v v' hv) fun c c' hc => ?_
  rw [hc.1.isOk_eq]
  split
  · -- The second check sees what the first has injected, in either order.
    exact hsecond pos c.value c'.value hc.2
  · exact Run.CoincideFrom.pure hc

theorem orderless_firstOf (expected : String) {checks : List Checker} (h : ∀ check ∈ checks, check.Orderless base) :
    (firstOf expected checks).Orderless base := by
  induction checks with
  | nil => exact orderless_reject expected
  | cons check rest ih =>
      intro pos v v' hv
      refine Run.CoincideFrom.bind (h check List.mem_cons_self pos v v' hv) fun c c' hc => ?_
      rw [hc.1.isOk_eq]
      split
      · exact Run.CoincideFrom.pure hc
      · exact ih (fun check' h' => h check' (List.mem_cons_of_mem check h')) pos c.value c'.value hc.2

theorem orderless_tooDeep : tooDeep.Orderless base :=
  fun pos v v' hv =>
    Run.CoincideFrom.bind (Run.CoincideFrom.log _ _) fun _ _ _ => orderless_reject _ pos v v' hv

/-! ### Arrays -/

theorem elements_of_kind_ne {v : Value} (h : v.kind ≠ .array) :
    elements element pos v = reject Kind.array.name pos v := by
  cases v with
  | array items => exact absurd rfl h
  | _ => rfl

theorem Orderless.elements (h : element.Orderless base) : (elements element).Orderless base := by
  intro pos v v' hv
  by_cases hkind : v.kind = .array
  · obtain ⟨items, rfl⟩ := Value.eq_array_of_kind hkind
    obtain ⟨items', rfl, hitems⟩ := hv.from_array
    rw [Checker.elements, Checker.elements]
    split
    · exact orderless_tooDeep pos _ _ hv
    · refine Run.CoincideFrom.bind (Run.CoincideFrom.mapM hitems (h pos.descend)) fun rs rs' hrs => ?_
      have hreported := forall₂_entries_iff.mp (forall₂_reported Segment.index (hrs.imp fun _ _ hr => hr.1))
      refine Run.CoincideFrom.pure ⟨.elements none hreported.1 hreported.2, .of_items ?_⟩
      rw [List.forall₂_map_left_iff, List.forall₂_map_right_iff]
      exact hrs.imp fun _ _ hr => hr.2
  · -- Matching values are of one kind, so neither is an array.
    have hkind' : v'.kind ≠ .array := hv.kind_eq ▸ hkind
    rw [elements_of_kind_ne hkind, elements_of_kind_ne hkind']
    exact orderless_reject _ pos v v' hv

/-! ### Objects -/

theorem entries_of_kind_ne {checkOf : String → Checker} {slots : List Slot} {v : Value} (h : v.kind ≠ .object) :
    entries checkOf slots pos v = reject Kind.object.name pos v := by
  cases v with
  | object fields => exact absurd rfl h
  | _ => rfl

theorem coincide_inject {slot : Slot} (h : slot.check.Orderless base) (pos : Position) (d : Value) :
    Run.CoincideFrom base (SameKey (Value.Matches base)) (slot.inject pos d) (slot.inject pos d) := by
  refine Run.CoincideFrom.bind (Run.CoincideFrom.log _ _) fun _ _ _ => ?_
  refine Run.CoincideFrom.bind (Value.coincide_deepCopy base d) fun copy copy' hcopy => ?_
  refine Run.CoincideFrom.bind (h pos copy copy' hcopy) fun c c' hc => ?_
  exact Run.CoincideFrom.pure ⟨rfl, hc.2⟩

/-- The same keys are missing in either order, and they are filled in the order in which they are declared. -/
theorem coincide_injections {slots : List Slot} (hslots : ∀ slot ∈ slots, slot.check.Orderless base)
    {fields fields' : Fields Value} (h : ∀ key, fields.has key = fields'.has key) (pos : Position) :
    Run.CoincideFrom base (List.Forall₂ (SameKey (Value.Matches base)))
      ((Slot.missing slots fields).mapM fun m => m.1.inject pos m.2)
      ((Slot.missing slots fields').mapM fun m => m.1.inject pos m.2) := by
  rw [← missing_congr slots h]
  refine Run.CoincideFrom.mapM (forall₂_self _) ?_
  rintro _ m ⟨hm, rfl⟩
  exact coincide_inject (hslots m.1 (mem_missing hm).1) pos m.2

/-- The entries of an object may be checked in either order. -/
theorem coincide_entries {checkOf : String → Checker} (hcheck : ∀ key, (checkOf key).Orderless base)
    {fields fields' : Fields Value} (h : Shuffled (SameKey (Value.Matches base)) fields fields') (pos : Position) :
    Run.CoincideFrom base (Shuffled (SameKey (Checked.Matches base)))
      (fields.mapM fun e => Prod.mk e.1 <$> checkOf e.1 pos e.2)
      (fields'.mapM fun e => Prod.mk e.1 <$> checkOf e.1 pos e.2) := by
  refine Run.CoincideFrom.mapM_shuffled h ?_
  rintro ⟨key, x⟩ ⟨_, x'⟩ ⟨rfl, hx⟩
  exact Run.CoincideFrom.map ((hcheck key pos x x' hx).mono fun c c' hc => ⟨rfl, hc⟩)

/-- Entries with matching answers are reported as matching items, in whichever order they were checked. -/
theorem reported_shuffled {rs rs' : List (String × Checked)} (h : Shuffled (SameKey (Checked.Matches base)) rs rs') :
    Outcome.Matches base (.collection (rs.map fun r => (.key r.1, r.2.outcome)))
      (.collection (rs'.map fun r => (.key r.1, r.2.outcome))) := by
  have hitems : ∀ rs : List (String × Checked), rs.map (fun r => (Segment.key r.1, r.2.outcome)) =
      (rs.map fun r => (r.1, r.2.outcome)).map Outcome.keyItem := by
    intro rs
    rw [List.map_map]
    rfl
  rw [hitems, hitems]
  exact .of_entries none (Shuffled.map (h.mono fun _ _ hr => ⟨hr.1, hr.2.1⟩))

theorem orderless_entries {checkOf : String → Checker} {slots : List Slot}
    (hcheck : ∀ key, (checkOf key).Orderless base) (hslots : ∀ slot ∈ slots, slot.check.Orderless base) :
    (entries checkOf slots).Orderless base := by
  intro pos v v' hv
  by_cases hkind : v.kind = .object
  · obtain ⟨fields, rfl⟩ := Value.eq_object_of_kind hkind
    obtain ⟨fields', rfl, hfields⟩ := hv.from_object
    rw [entries, entries]
    split
    · exact orderless_tooDeep pos _ _ hv
    · have hadded := coincide_injections hslots (has_eq_of_shuffled hfields) pos.descend
      refine Run.CoincideFrom.bind (coincide_entries hcheck hfields pos.descend) fun rs rs' hrs => ?_
      refine Run.CoincideFrom.bind hadded fun added added' hadded => ?_
      refine Run.CoincideFrom.pure ⟨reported_shuffled hrs, .of_entries (Shuffled.append ?_ (.of_forall₂ hadded))⟩
      exact Shuffled.map (hrs.mono fun _ _ hr => ⟨hr.1, hr.2.2⟩)
  · have hkind' : v'.kind ≠ .object := hv.kind_eq ▸ hkind
    rw [entries_of_kind_ne hkind, entries_of_kind_ne hkind']
    exact orderless_reject _ pos v v' hv

end Checker

/-! ## Orderless schemas -/

namespace Schema

variable {base : Nat} {s : Schema}

/-- **The checks of schemas are orderless**, at every position. -/
theorem orderless_check (hc : s.CustomFree) (hl : s.OldLiterals base) : s.check.Orderless base := by
  have hclosed : Checker.Closed (Checker.Orderless base) fun _ => True :=
    { accept := orderless_accept
      ofKind := orderless_ofKind
      andThen := Checker.Orderless.andThen
      firstOf := orderless_firstOf
      advising := fun warning {_} h => h.advising warning
      elements := Checker.Orderless.elements
      entries := fun hcheck hslots _ => orderless_entries hcheck hslots }
  refine hclosed.check ((hc.and hl).mono fun rule hrule => ?_)
  cases rule with
  | oneOf literals => exact orderless_literal hrule.2 _
  | custom name check => exact absurd hrule.1 id
  | _ => exact trivial

/-- **The order of keys does not matter.** Two values that differ only in the order of the keys in their objects are both
    accepted or both refused, with outcomes that match, warning by warning, and the values that are left match. What is
    fresh are the identities from `base` on, none of which the literals of the schema have. -/
theorem validate_reordered (hc : s.CustomFree) (hl : s.OldLiterals base) (limits : Limits) {v v' : Value}
    (h : v.Reordered v') {next next' : Nat} (hn : base ≤ next) (hn' : base ≤ next') :
    let c := ((s.validate limits v).start next).result
    let c' := ((s.validate limits v').start next').result
    c.outcome.isOk = c'.outcome.isOk ∧ c.outcome.Matches base c'.outcome ∧ c.value.Matches base c'.value := by
  intro c c'
  obtain ⟨houtcome, hvalue⟩ :=
    (orderless_check hc hl (.root limits) v v' (.of_reordered h) next next' hn hn').1
  exact ⟨houtcome.isOk_eq, houtcome, hvalue⟩

/-- The first alternative injects a callable into each plugin before it fails, so that the refused value shows them, and
    in the other order they get each other's identities. The notice for `mode` is given in either place. -/
theorem validate_reordered_plugins :
    let plugin := object [("host", string), ("run", function.withDefault (.function ⟨0, "run"⟩))]
    let plugins := either [compose (objects .silent [] plugin) (oneOf [.null]), string]
    let s := object [("plugins", plugins), ("mode", deprecated string none)]
    let host := ("host", Value.string "h")
    let run := fun id => ("run", Value.function ⟨id, "run"⟩)
    let v := Value.object [("plugins", .object [("a", .object [host]), ("b", .object [])]), ("mode", .null)]
    let v' := Value.object [("mode", .null), ("plugins", .object [("b", .object []), ("a", .object [host])])]
    let c := ((s.validate .strict v).start 7).result
    let c' := ((s.validate .strict v').start 7).result
    s.CustomFree ∧ s.OldLiterals 7 ∧ v.Reordered v' ∧
      c.value =
        .object [("plugins", .object [("a", .object [host, run 7]), ("b", .object [run 8])]), ("mode", .null)] ∧
      c'.value =
        .object [("mode", .null), ("plugins", .object [("b", .object [run 7]), ("a", .object [host, run 8])])] ∧
      c.outcome.isOk = c'.outcome.isOk ∧ c.outcome.Matches 7 c'.outcome ∧ c.value.Matches 7 c'.value := by
  intro plugin plugins s host run v v' c c'
  have hc : s.CustomFree := by decide
  have hl : s.OldLiterals 7 := by decide
  let shuffled := Value.object [("b", .object []), ("a", .object [host])]
  have hinside : (Value.object [("a", .object [host]), ("b", .object [])]).Reordered shuffled :=
    .of_perm (.swap _ _ _)
  have hv : v.Reordered v' :=
    .of_entries ⟨[("plugins", shuffled), ("mode", .null)],
      .cons ⟨rfl, hinside⟩ (.cons ⟨rfl, .refl .null⟩ .nil), .swap _ _ _⟩
  exact ⟨hc, hl, hv, rfl, rfl, validate_reordered hc hl .strict hv (Nat.le_refl 7) (Nat.le_refl 7)⟩

end Schema

end ConfigSchema
