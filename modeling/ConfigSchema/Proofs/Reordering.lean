import Mathlib.Data.List.Perm.Basic
import ConfigSchema.Proofs.Identity

/-!
# `Value.Reordered` — the same keys in another order

The entries of an object come in an order, and so do the items that are reported for them. This module says what it
means for two values, or two outcomes, to be the same but for that order.

* `Value.Reordered v w` — at any depth, the objects of `w` have the entries of `v` in some order. Arrays keep theirs.
* `Value.Matches base v w` — so it is once the identities from `base` on are forgotten.
* `Outcome.Matches base o o'` — both trees have the same warnings and expectations in the same places, where the
  items under keys may come in another order, and the refused values match.

All three rest on one relation of lists, `Shuffled R`: the second list is the first one in another order, with each
member replaced by a member that `R` relates to it.
-/

namespace ConfigSchema

/-! ## Lists in another order -/

section Shuffled

variable {α β γ δ : Type}

/-- **Another order.** Some order of `m` is related to `l` member by member. -/
def Shuffled (R : α → β → Prop) (l : List α) (m : List β) : Prop := ∃ mid, List.Forall₂ R l mid ∧ mid.Perm m

namespace Shuffled

variable {R : α → β → Prop} {l : List α} {m : List β}

theorem of_forall₂ (h : List.Forall₂ R l m) : Shuffled R l m := ⟨m, h, .refl m⟩

theorem mono {T : α → β → Prop} (h : Shuffled R l m) (hT : ∀ a b, R a b → T a b) : Shuffled T l m := by
  obtain ⟨mid, hmid, hperm⟩ := h
  exact ⟨mid, hmid.imp hT, hperm⟩

/-- What is related member by member to each of two lists is in another order if they are. -/
theorem comp {P : α → γ → Prop} {Q : β → δ → Prop} {T : γ → δ → Prop} {l' : List γ} {m' : List δ}
    (h : Shuffled R l m) (hl : List.Forall₂ P l l') (hm : List.Forall₂ Q m m')
    (hT : ∀ a b c d, P a c → R a b → Q b d → T c d) : Shuffled T l' m' := by
  obtain ⟨mid, hmid, hperm⟩ := h
  -- What is related to `m` is related, in the order of `mid`, to `mid`.
  obtain ⟨mid', hmid', hperm'⟩ := List.perm_comp_forall₂ hperm hm
  have hfrom : List.Forall₂ (fun c b => ∃ a, P a c ∧ R a b) l' mid :=
    forall₂_trans (fun _ a _ hac hab => ⟨a, hac, hab⟩) hl.flip hmid
  refine ⟨mid', forall₂_trans (fun c b d hcb hbd => ?_) hfrom hmid', hperm'⟩
  obtain ⟨a, hac, hab⟩ := hcb
  exact hT a b c d hac hab hbd

theorem map {T : γ → δ → Prop} {f : α → γ} {g : β → δ} (h : Shuffled (fun a b => T (f a) (g b)) l m) :
    Shuffled T (l.map f) (m.map g) := by
  have himage : ∀ {α γ : Type} (f : α → γ) (l : List α), List.Forall₂ (fun a c => c = f a) l (l.map f) :=
    fun f l => List.forall₂_map_right_iff.mpr (List.forall₂_same.mpr fun _ _ => rfl)
  refine h.comp (himage f l) (himage g m) fun a b c d hc hab hd => ?_
  rw [hc, hd]
  exact hab

theorem of_map {T : γ → δ → Prop} {f : α → γ} {g : β → δ} (h : Shuffled T (l.map f) (m.map g)) :
    Shuffled (fun a b => T (f a) (g b)) l m := by
  have horigin : ∀ {α γ : Type} (f : α → γ) (l : List α), List.Forall₂ (fun c a => c = f a) (l.map f) l :=
    fun f l => List.forall₂_map_left_iff.mpr (List.forall₂_same.mpr fun _ _ => rfl)
  refine h.comp (horigin f l) (horigin g m) fun c d a b hc hcd hd => ?_
  rw [← hc, ← hd]
  exact hcd

theorem append {l' : List α} {m' : List β} (h : Shuffled R l m) (h' : Shuffled R l' m') :
    Shuffled R (l ++ l') (m ++ m') := by
  obtain ⟨mid, hmid, hperm⟩ := h
  obtain ⟨mid', hmid', hperm'⟩ := h'
  exact ⟨mid ++ mid', List.rel_append hmid hmid', hperm.append hperm'⟩

/-- What is the same for related members is the same for the whole lists. -/
theorem map_perm {f : α → γ} {g : β → γ} (h : Shuffled R l m) (hR : ∀ a b, R a b → f a = g b) :
    (l.map f).Perm (m.map g) := by
  obtain ⟨mid, hmid, hperm⟩ := h
  have hmap : mid.map g = l.map f := forall₂_map_eq (hmid.imp fun a b hab => (hR a b hab).symm)
  exact hmap ▸ hperm.map g

theorem all_eq {p : α → Bool} {q : β → Bool} (h : Shuffled R l m) (hR : ∀ a b, R a b → p a = q b) :
    l.all p = m.all q := by
  have hperm := (h.map_perm hR).all_eq (f := id)
  rwa [List.all_map, List.all_map] at hperm

theorem exists_left (h : Shuffled R l m) {a : α} (ha : a ∈ l) : ∃ b ∈ m, R a b := by
  obtain ⟨mid, hmid, hperm⟩ := h
  obtain ⟨b, hb, hab⟩ := exists_of_forall₂_left hmid ha
  exact ⟨b, hperm.mem_iff.mp hb, hab⟩

theorem exists_right (h : Shuffled R l m) {b : β} (hb : b ∈ m) : ∃ a ∈ l, R a b := by
  obtain ⟨mid, hmid, hperm⟩ := h
  exact exists_of_forall₂_right hmid (hperm.mem_iff.mpr hb)

end Shuffled

/-- Entries under one key, with related contents. -/
def SameKey (R : α → β → Prop) (e : String × α) (e' : String × β) : Prop := e.1 = e'.1 ∧ R e.2 e'.2

theorem forall₂_sameKey {R : α → β → Prop} {fields : Fields α} {fields' : Fields β}
    (hk : fields.keys = fields'.keys) (h : ∀ p ∈ fields.zip fields', R p.1.2 p.2.2) :
    List.Forall₂ (SameKey R) fields fields' :=
  forall₂_entries_iff.mpr ⟨hk, h⟩

/-- In another order, the same keys are there. -/
theorem has_eq_of_shuffled {R : α → β → Prop} {fields : Fields α} {fields' : Fields β}
    (h : Shuffled (SameKey R) fields fields') (key : String) : fields.has key = fields'.has key := by
  have hkeys : fields.keys.Perm fields'.keys := h.map_perm fun _ _ he => he.1
  rw [Bool.eq_iff_iff, Fields.has_iff_mem_keys, Fields.has_iff_mem_keys]
  exact hkeys.mem_iff

end Shuffled

/-! ## Values in another order -/

/-- **Reordering.** The values differ in nothing but the order of the keys in their objects, at any depth. -/
inductive Value.Reordered : Value → Value → Prop
  | refl (v : Value) : Reordered v v
  /-- Elements are reordered in their places. -/
  | array {items items' : List Value} (hl : items.length = items'.length)
      (h : ∀ p ∈ items.zip items', Reordered p.1 p.2) : Reordered (.array items) (.array items')
  /-- Entries are reordered inside, and then put in another order. -/
  | object {fields mid fields' : Fields Value} (hk : fields.keys = mid.keys)
      (h : ∀ p ∈ fields.zip mid, Reordered p.1.2 p.2.2) (hperm : mid.Perm fields') :
      Reordered (.object fields) (.object fields')

namespace Value

namespace Reordered

variable {v w : Value}

theorem of_items {items items' : List Value} (h : List.Forall₂ Reordered items items') :
    Reordered (.array items) (.array items') :=
  .array h.length_eq fun _ hp => List.forall₂_zip h hp

theorem of_entries {fields fields' : Fields Value} (h : Shuffled (SameKey Reordered) fields fields') :
    Reordered (.object fields) (.object fields') := by
  obtain ⟨mid, hmid, hperm⟩ := h
  have hmid := forall₂_entries_iff.mp hmid
  exact .object hmid.1 hmid.2 hperm

/-- Only the entries of the object itself change places. -/
theorem of_perm {fields fields' : Fields Value} (h : fields.Perm fields') :
    Reordered (.object fields) (.object fields') :=
  of_entries ⟨fields, List.forall₂_same.mpr fun e _ => ⟨rfl, .refl e.2⟩, h⟩

theorem from_array {items items' : List Value} (h : Reordered (.array items) (.array items')) :
    List.Forall₂ Reordered items items' := by
  cases h with
  | refl => exact List.forall₂_same.mpr fun v _ => .refl v
  | array hl h => exact List.forall₂_iff_zip.mpr ⟨hl, fun hp => h _ hp⟩

theorem from_object {fields fields' : Fields Value} (h : Reordered (.object fields) (.object fields')) :
    Shuffled (SameKey Reordered) fields fields' := by
  cases h with
  | refl => exact .of_forall₂ (List.forall₂_same.mpr fun e _ => ⟨rfl, .refl e.2⟩)
  | object hk h hperm => exact ⟨_, forall₂_sameKey hk h, hperm⟩

theorem kind_eq (h : Reordered v w) : w.kind = v.kind := by
  cases h <;> rfl

/-- No literal sees the order of keys, for none equals an object. -/
theorem strictEq_eq (h : Reordered v w) (l : Value) : l.strictEq w = l.strictEq v := by
  cases h with
  | refl => rfl
  | array hl h => cases l <;> rfl
  | object hk h hperm => cases l <;> rfl

/-- Other identities leave the order as it is. -/
theorem relabel (h : Reordered v w) (f : Nat → Nat) : (v.relabel f).Reordered (w.relabel f) := by
  induction h with
  | refl v => exact .refl _
  | @array items items' hl _ ih =>
      have hitems : List.Forall₂ (fun x y => (x.relabel f).Reordered (y.relabel f)) items items' :=
        List.forall₂_iff_zip.mpr ⟨hl, fun hp => ih _ hp⟩
      rw [relabel_array, relabel_array]
      refine of_items ?_
      rw [List.forall₂_map_left_iff, List.forall₂_map_right_iff]
      exact hitems
  | @object fields mid fields' hk _ hperm ih =>
      have hmid : List.Forall₂ (SameKey fun x y => (x.relabel f).Reordered (y.relabel f)) fields mid :=
        forall₂_sameKey hk ih
      -- The keys stay, so the entries are relabelled first and then put in the other order.
      rw [relabel_object, relabel_object]
      exact of_entries (Shuffled.map ⟨mid, hmid, hperm⟩)

end Reordered

/-- **The values match**: apart from the identities from `base` on, they differ in nothing but the order of keys. -/
def Matches (base : Nat) (v w : Value) : Prop := (v.forget base).Reordered (w.forget base)

namespace Matches

variable {base : Nat} {v w : Value}

theorem of_reordered (h : v.Reordered w) : v.Matches base w := h.relabel _

theorem of_forget_eq (h : v.forget base = w.forget base) : v.Matches base w := by
  unfold Matches
  rw [h]
  exact Reordered.refl _

theorem kind_eq (h : v.Matches base w) : w.kind = v.kind := by
  have hkind := Reordered.kind_eq h
  rwa [forget, forget, kind_relabel, kind_relabel] at hkind

/-- An old literal does not tell matching values apart. -/
theorem strictEq_eq (h : v.Matches base w) {l : Value} (hl : l.Old base) : l.strictEq w = l.strictEq v := by
  rw [← strictEq_forget hl v, ← strictEq_forget hl w]
  exact Reordered.strictEq_eq h l

theorem of_items {items items' : List Value} (h : List.Forall₂ (Matches base) items items') :
    Matches base (.array items) (.array items') := by
  unfold Matches
  rw [forget_array, forget_array]
  refine Reordered.of_items ?_
  rw [List.forall₂_map_left_iff, List.forall₂_map_right_iff]
  exact h

theorem of_entries {fields fields' : Fields Value} (h : Shuffled (SameKey (Matches base)) fields fields') :
    Matches base (.object fields) (.object fields') := by
  unfold Matches
  rw [forget_object, forget_object]
  exact Reordered.of_entries (Shuffled.map h)

theorem from_array {items : List Value} (h : Matches base (.array items) w) :
    ∃ items', w = .array items' ∧ List.Forall₂ (Matches base) items items' := by
  obtain ⟨items', rfl⟩ := eq_array_of_kind h.kind_eq
  refine ⟨items', rfl, ?_⟩
  unfold Matches at h
  rw [forget_array, forget_array] at h
  have hitems := h.from_array
  rwa [List.forall₂_map_left_iff, List.forall₂_map_right_iff] at hitems

theorem from_object {fields : Fields Value} (h : Matches base (.object fields) w) :
    ∃ fields', w = .object fields' ∧ Shuffled (SameKey (Matches base)) fields fields' := by
  obtain ⟨fields', rfl⟩ := eq_object_of_kind h.kind_eq
  refine ⟨fields', rfl, ?_⟩
  unfold Matches at h
  rw [forget_object, forget_object] at h
  have hentries := Shuffled.of_map h.from_object
  exact hentries

end Matches

end Value

/-! ## Outcomes in another order -/

/-- The item that is reported for an entry. -/
def Outcome.keyItem (e : String × Outcome) : Segment × Outcome := (.key e.1, e.2)

/-- **The outcomes match.** They have the same form, and every node the same warning; but items under keys may come in
    another order, and the values that are shown as refused match. -/
inductive Outcome.Matches (base : Nat) : Outcome → Outcome → Prop
  | passed (warning : Option String) : Matches base (.passed warning) (.passed warning)
  | failed (expected : String) (warning : Option String) {actual actual' : Value} (h : actual.Matches base actual') :
      Matches base (.failed expected actual warning) (.failed expected actual' warning)
  /-- Items under the same segments, in the same order. -/
  | elements (warning : Option String) {items items' : List (Segment × Outcome)}
      (hs : items.map Prod.fst = items'.map Prod.fst) (h : ∀ p ∈ items.zip items', Matches base p.1.2 p.2.2) :
      Matches base (.items items warning) (.items items' warning)
  /-- Items under the same keys, in some order. -/
  | entries (warning : Option String) {fields mid fields' : Fields Outcome} (hk : fields.keys = mid.keys)
      (h : ∀ p ∈ fields.zip mid, Matches base p.1.2 p.2.2) (hperm : mid.Perm fields') :
      Matches base (.items (fields.map keyItem) warning) (.items (fields'.map keyItem) warning)

namespace Outcome.Matches

variable {base : Nat} {o o' : Outcome}

theorem of_entries (warning : Option String) {fields fields' : Fields Outcome}
    (h : Shuffled (SameKey (Matches base)) fields fields') :
    Matches base (.items (fields.map keyItem) warning) (.items (fields'.map keyItem) warning) := by
  obtain ⟨mid, hmid, hperm⟩ := h
  have hmid := forall₂_entries_iff.mp hmid
  exact .entries warning hmid.1 hmid.2 hperm

/-- Matching outcomes are one verdict. -/
theorem isOk_eq (h : o.Matches base o') : o.isOk = o'.isOk := by
  induction h with
  | passed warning => rfl
  | failed expected warning h => rfl
  | @elements warning items items' hs _ ih =>
      have hitems : List.Forall₂ (fun e e' => e.1 = e'.1 ∧ e.2.isOk = e'.2.isOk) items items' :=
        (forall₂_entries_iff (R := fun o o' : Outcome => o.isOk = o'.isOk)).mpr ⟨hs, ih⟩
      rw [isOk, isOk, allOk_eq_all, allOk_eq_all]
      exact (Shuffled.of_forall₂ hitems).all_eq fun _ _ he => he.2
  | @entries warning fields mid fields' hk _ hperm ih =>
      have hmid : List.Forall₂ (SameKey fun o o' : Outcome => o.isOk = o'.isOk) fields mid :=
        forall₂_sameKey hk ih
      rw [isOk, isOk, allOk_eq_all, allOk_eq_all, List.all_map, List.all_map]
      exact Shuffled.all_eq ⟨mid, hmid, hperm⟩ fun _ _ he => he.2

/-- Matching outcomes earn one warning alike. -/
theorem appendWarning (h : o.Matches base o') (text : String) :
    (o.appendWarning text).Matches base (o'.appendWarning text) := by
  cases h with
  | passed warning => exact .passed _
  | failed expected warning h => exact .failed expected _ h
  | elements warning hs h => exact .elements _ hs h
  | entries warning hk h hperm => exact .entries _ hk h hperm

end Outcome.Matches

end ConfigSchema
