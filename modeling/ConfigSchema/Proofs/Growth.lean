import ConfigSchema.Proofs.Conformance

/-!
# `Value.GrowsInto` — all that a validation does to a value

A validation writes defaults into a value, and nothing else. `Value.GrowsInto new v w` says that `w` is `v`
with entries added to its objects, behind the entries that are there and under other keys than theirs, which
satisfy `new`; what is no container is as it was, and arrays keep their length.

Whatever a validation without custom checks decides, the value has grown into what it leaves
(`gives_growsInto`, `validate_growsInto`). The runs that write, one after another, into one value are what makes `GrowsInto.trans`
needed: failed alternatives, the first part of a composition, the checks of injected defaults.

Growing never makes a value conform that did not (`Conforms.of_growsInto`): every rule demands something of
entries that are present, and none demands that an entry be present.
-/

namespace ConfigSchema

/-! ## Growth -/

/-- **Growth** by keys that satisfy `new`. -/
inductive Value.GrowsInto (new : String → Prop) : Value → Value → Prop
  | refl (v : Value) : GrowsInto new v v
  /-- Elements grow in their places. -/
  | array {items items' : List Value} (hl : items.length = items'.length)
      (h : ∀ p ∈ items.zip items', GrowsInto new p.1 p.2) : GrowsInto new (.array items) (.array items')
  /-- Entries grow in their places, and those under new keys come behind them. -/
  | object {fields fields' added : Fields Value} (hk : fields.keys = fields'.keys)
      (h : ∀ p ∈ fields.zip fields', GrowsInto new p.1.2 p.2.2) (hfresh : ∀ a ∈ added, a.1 ∉ fields.keys)
      (hnew : ∀ a ∈ added, new a.1) : GrowsInto new (.object fields) (.object (fields' ++ added))

namespace Value

variable {new : String → Prop}

/-- An entry grows under its key. -/
def GrowsEntry (new : String → Prop) (e e' : String × Value) : Prop := e.1 = e'.1 ∧ GrowsInto new e.2 e'.2

namespace GrowsInto

theorem of_items {items items' : List Value} (h : List.Forall₂ (GrowsInto new) items items') :
    GrowsInto new (.array items) (.array items') :=
  .array h.length_eq fun _ hp => List.forall₂_zip h hp

theorem of_entries {fields fields' added : Fields Value} (h : List.Forall₂ (GrowsEntry new) fields fields')
    (hfresh : ∀ a ∈ added, a.1 ∉ fields.keys) (hnew : ∀ a ∈ added, new a.1) :
    GrowsInto new (.object fields) (.object (fields' ++ added)) :=
  have h := forall₂_entries_iff.mp h
  .object h.1 h.2 hfresh hnew

/-! ### From and to containers -/

theorem from_array {items : List Value} {w : Value} (h : GrowsInto new (.array items) w) :
    ∃ items', w = .array items' ∧ List.Forall₂ (GrowsInto new) items items' := by
  cases h with
  | refl => exact ⟨items, rfl, List.forall₂_same.mpr fun v _ => .refl v⟩
  | array hl h => exact ⟨_, rfl, List.forall₂_iff_zip.mpr ⟨hl, fun hp => h _ hp⟩⟩

theorem from_object {fields : Fields Value} {w : Value} (h : GrowsInto new (.object fields) w) :
    ∃ fields' added, w = .object (fields' ++ added) ∧ List.Forall₂ (GrowsEntry new) fields fields' ∧
      (∀ a ∈ added, a.1 ∉ fields.keys) ∧ ∀ a ∈ added, new a.1 := by
  cases h with
  | refl =>
      refine ⟨fields, [], by rw [List.append_nil], List.forall₂_same.mpr fun e _ => ⟨rfl, .refl e.2⟩, ?_, ?_⟩
      · exact fun a ha => absurd ha List.not_mem_nil
      · exact fun a ha => absurd ha List.not_mem_nil
  | object hk h hfresh hnew => exact ⟨_, _, rfl, forall₂_entries_iff.mpr ⟨hk, h⟩, hfresh, hnew⟩

theorem to_array {v : Value} {items' : List Value} (h : GrowsInto new v (.array items')) :
    ∃ items, v = .array items ∧ List.Forall₂ (GrowsInto new) items items' := by
  cases h with
  | refl => exact ⟨items', rfl, List.forall₂_same.mpr fun v _ => .refl v⟩
  | array hl h => exact ⟨_, rfl, List.forall₂_iff_zip.mpr ⟨hl, fun hp => h _ hp⟩⟩

theorem to_object {v : Value} {fields' : Fields Value} (h : GrowsInto new v (.object fields')) :
    ∃ fields, v = .object fields ∧ ∀ e ∈ fields, ∃ e' ∈ fields', GrowsEntry new e e' := by
  generalize hw : Value.object fields' = w at h
  cases h with
  | refl =>
      subst hw
      exact ⟨fields', rfl, fun e he => ⟨e, he, rfl, .refl e.2⟩⟩
  | object hk h _ _ =>
      cases hw
      refine ⟨_, rfl, fun e he => ?_⟩
      obtain ⟨e', he', hgrows⟩ := exists_of_forall₂_left (forall₂_entries_iff.mpr ⟨hk, h⟩) he
      exact ⟨e', List.mem_append_left _ he', hgrows⟩
  | array hl h => exact absurd hw (by simp)

/-! ### Laws -/

theorem trans {x y z : Value} (h : GrowsInto new x y) (h' : GrowsInto new y z) : GrowsInto new x z := by
  induction h generalizing z with
  | refl => exact h'
  | @array items items' hl _ ih =>
      obtain ⟨items'', rfl, hitems⟩ := h'.from_array
      have hsteps : List.Forall₂ (fun v v' => ∀ {w}, GrowsInto new v' w → GrowsInto new v w) items items' :=
        List.forall₂_iff_zip.mpr ⟨hl, fun hp _ => ih _ hp⟩
      exact of_items (forall₂_trans (fun _ _ _ hstep hgrow => hstep hgrow) hsteps hitems)
  | @object fields fields' added hk _ hfresh hnew ih =>
      obtain ⟨fields'', added', rfl, hall, hfresh', hnew'⟩ := h'.from_object
      -- What was added by the first step may have grown in the second.
      obtain ⟨grown, grownAdded, rfl, hgrown, hgrownAdded⟩ := forall₂_append_left hall
      have hsteps : List.Forall₂ (fun e e' => e.1 = e'.1 ∧ ∀ {w}, GrowsInto new e'.2 w → GrowsInto new e.2 w)
          fields fields' :=
        (forall₂_entries_iff (R := fun v v' => ∀ {w}, GrowsInto new v' w → GrowsInto new v w)).mpr
          ⟨hk, fun p hp _ => ih p hp⟩
      rw [List.append_assoc]
      refine of_entries (forall₂_trans ?_ hsteps hgrown) (fun a ha => ?_) fun a ha => ?_
      · exact fun _ _ _ hstep hgrow => ⟨hstep.1.trans hgrow.1, hstep.2 hgrow.2⟩
      · rcases List.mem_append.mp ha with ha | ha
        · obtain ⟨b, hb, hgrow⟩ := exists_of_forall₂_right hgrownAdded ha
          exact hgrow.1 ▸ hfresh b hb
        · have hkeys : Fields.keys (fields' ++ added) = fields'.keys ++ added.keys := List.map_append
          intro hmem
          refine hfresh' a ha ?_
          rw [hkeys, ← hk]
          exact List.mem_append_left _ hmem
      · rcases List.mem_append.mp ha with ha | ha
        · obtain ⟨b, hb, hgrow⟩ := exists_of_forall₂_right hgrownAdded ha
          exact hgrow.1 ▸ hnew b hb
        · exact hnew' a ha

/-- Growing keeps the kind. -/
theorem kind_eq {v w : Value} (h : GrowsInto new v w) : w.kind = v.kind := by
  cases h <;> rfl

/-- What equals a literal strictly has not grown. -/
theorem strictEq_eq {v w : Value} (h : GrowsInto new v w) (l : Value) : l.strictEq w = l.strictEq v := by
  cases h with
  | refl => rfl
  | array hl h => cases l <;> rfl
  | object hk h hfresh hnew => cases l <;> rfl

end GrowsInto

end Value

/-! ## Validations make values grow -/

namespace Schema

variable {new : String → Prop} {base : Nat} {pos : Position} {v : Value} {default? : Option Value}

/-- Every key that some object rule in the schema declares with a default satisfies `new`. -/
def InjectsOnly (new : String → Prop) : Schema → Prop :=
  Everywhere fun rule => ∀ field ∈ rule.declared, field.2.default?.isSome → new field.1

theorem injectsOnly_true (s : Schema) : s.InjectsOnly fun _ => True :=
  everywhere_of_forall s fun _ _ _ _ => trivial

/-- Each alternative starts with what the failed ones before it have left. -/
theorem gives_growsInto_either {alternatives : List Schema}
    (h : ∀ s ∈ alternatives, ∀ v, s.Gives base pos v fun r => v.GrowsInto new r.value) :
    Gives ⟨default?, .either alternatives⟩ base pos v fun r => v.GrowsInto new r.value := by
  induction alternatives generalizing default? v with
  | nil => exact gives_either_nil (.refl v)
  | cons a rest ih =>
      refine gives_either_cons (h a List.mem_cons_self v) (fun _ hr _ => hr) fun r hr _ => ?_
      have hrest : Gives ⟨none, .either rest⟩ base pos r.value fun r' => r.value.GrowsInto new r'.value :=
        ih fun s hs => h s (List.mem_cons_of_mem a hs)
      exact hrest.mono fun r' hr' => hr.trans hr'

theorem gives_growsInto_keyed {rule : Rule} (hrule : rule.IsKeyed)
    (hnew : ∀ field ∈ rule.declared, field.2.default?.isSome → new field.1)
    (h : ∀ t ∈ rule.parts, ∀ pos v, t.Gives base pos v fun r => v.GrowsInto new r.value) :
    Gives ⟨default?, rule⟩ base pos v fun r => v.GrowsInto new r.value := by
  refine gives_object (R := fun e r => e.2.GrowsInto new r.value) (A := fun _ _ => True) hrule
    (fun _ => .refl v) ?_ (fun e _ => .refl e.2) ?_ ?_
  · intro e s hs
    exact h s (Rule.mem_parts_of_governor hs) pos.descend e.2
  · intro field hf d _
    exact Gives.fill (h field.2 (Rule.mem_parts_of_declared hf) pos.descend) fun _ _ _ => trivial
  · intro fields hfields hpos rs added hrs hadded
    subst hfields
    -- The judged entries have grown in place, and each added one stems from a declared key that was lacking.
    have hlack : ∀ a ∈ added, a.1 ∉ Fields.keys fields ∧ new a.1 := by
      intro a ha
      obtain ⟨field, hf, hkey, -⟩ := exists_of_forall₂_right hadded ha
      obtain ⟨hdeclared, habsent, hdefault⟩ := Rule.mem_lacking_iff.mp hf
      rw [hkey]
      exact ⟨habsent, hnew field hdeclared hdefault⟩
    refine .of_entries ?_ (fun a ha => (hlack a ha).1) fun a ha => (hlack a ha).2
    rw [List.forall₂_map_right_iff]
    exact hrs.imp fun _ _ hr => ⟨hr.1.symm, hr.2⟩

/-- **A validation only lets a value grow**, by keys that are declared with a default. -/
theorem gives_growsInto {s : Schema} (hc : s.CustomFree) (hnew : s.InjectsOnly new) (base : Nat)
    (pos : Position) (v : Value) : s.Gives base pos v fun r => v.GrowsInto new r.value := by
  induction s using Schema.induction generalizing pos v with
  | step s ih =>
    obtain ⟨default?, rule⟩ := s
    have ihp : ∀ t ∈ rule.parts, ∀ pos v, t.Gives base pos v fun r => v.GrowsInto new r.value :=
      fun t ht pos v => ih t ht (hc.part ht) (hnew.part ht) pos v
    cases rule with
    | any => exact gives_any (.refl v)
    | kind k => exact gives_kind (.refl v)
    | int => exact gives_int (.refl v)
    | oneOf literals => exact gives_oneOf (.refl v)
    | compose first second =>
        have hsecond : second ∈ [first, second] := List.mem_cons_of_mem _ List.mem_cons_self
        refine gives_compose (ihp first List.mem_cons_self pos v) (fun r hr _ => ?_) fun _ hr _ => hr
        exact (ihp second hsecond pos r.value).mono fun r' hr' => hr.trans hr'
    | array element =>
        refine gives_array (fun _ => .refl v) (ihp element List.mem_cons_self pos.descend) ?_
        intro items hitems hpos rs hrs
        subst hitems
        exact .of_items (List.forall₂_map_right_iff.mpr hrs)
    | object fields suggest => exact gives_growsInto_keyed trivial hnew.here ihp
    | objects advice specifics element => exact gives_growsInto_keyed trivial hnew.here ihp
    | either alternatives => exact gives_growsInto_either fun s hs => ihp s hs pos
    | deprecated inner notice => exact gives_deprecated (ihp inner List.mem_cons_self pos v)
    | custom name check => exact absurd hc.here id

/-- The keys that a schema can write: an object rule somewhere in the schema declares them with a default. -/
def Injects (s : Schema) (key : String) : Prop :=
  ∃ t : Schema, t.Within s ∧ ∃ field ∈ t.rule.declared, field.1 = key ∧ field.2.default?.isSome

theorem injectsOnly_injects (s : Schema) : s.InjectsOnly s.Injects := by
  rw [InjectsOnly, everywhere_iff_within]
  intro t ht field hf hdefault
  exact ⟨t, ht, field, hf, rfl, hdefault⟩

/-- **A validation adds missing keys that are declared with a default, and does nothing else.** So it is for
    all choices and compositions, and whether or not the outcome is ok. -/
theorem validate_growsInto {s : Schema} (hc : s.CustomFree) (limits : Limits) (v : Value) (next : Nat) :
    v.GrowsInto s.Injects ((s.validate limits v).start next).result.value :=
  (gives_growsInto hc (injectsOnly_injects s) 0 (.root limits) v next (Nat.zero_le next)).1

/-- The first alternative fails and has injected by then; the other one fails on what was injected. -/
theorem validate_growsInto_servers :
    let server := object [("port", string.withDefault (.string "http")), ("host", string)]
    let s := either [array server, array (object [("host", any), ("port", int)])]
    let v := Value.array [.object [("host", .string "h")], .object [("host", .null)]]
    let grown := Value.array [.object [("host", .string "h"), ("port", .string "http")],
      .object [("host", .null), ("port", .string "http")]]
    s.CustomFree ∧ ((s.validate .strict v).start 0).result.outcome.isOk = false ∧
      ((s.validate .strict v).start 0).result.value = grown ∧ v.GrowsInto s.Injects grown := by
  intro server s v grown
  have hc : s.CustomFree := by decide
  have hgrown : ((s.validate .strict v).start 0).result.value = grown := rfl
  exact ⟨hc, rfl, hgrown, hgrown ▸ validate_growsInto hc .strict v 0⟩

/-! ## Conformance and growth -/

/-- **What a grown value conforms to, the value before did.** -/
theorem Conforms.of_growsInto {s : Schema} {cap depth : Nat} {w : Value} (h : s.Conforms cap depth w)
    (hv : v.GrowsInto new w) : s.Conforms cap depth v := by
  induction h generalizing v with
  | any => exact .any
  | kind h => exact .kind (hv.kind_eq ▸ h)
  | int h => exact .int (hv.kind_eq ▸ h)
  | oneOf hl h => exact .oneOf hl (hv.strictEq_eq _ ▸ h)
  | compose _ _ ih ih' => exact .compose (ih hv) (ih' hv)
  | either hs _ ih => exact .either hs (ih hv)
  | deprecated _ ih => exact .deprecated (ih hv)
  | array hdepth _ ih =>
      obtain ⟨items, rfl, hitems⟩ := hv.to_array
      refine .array hdepth fun x hx => ?_
      obtain ⟨y, hy, hgrow⟩ := exists_of_forall₂_left hitems hx
      exact ih y hy hgrow
  | object hdepth _ ih =>
      obtain ⟨fields, rfl, hfields⟩ := hv.to_object
      refine .object hdepth fun key x s hx hs => ?_
      obtain ⟨⟨key', y⟩, hy, rfl, hgrow⟩ := hfields (key, x) hx
      exact ih _ y s hy hs hgrow
  | objects hdepth _ ih =>
      obtain ⟨fields, rfl, hfields⟩ := hv.to_object
      refine .objects hdepth fun key x hx => ?_
      obtain ⟨⟨key', y⟩, hy, rfl, hgrow⟩ := hfields (key, x) hx
      exact ih _ y hy hgrow

end Schema

end ConfigSchema
