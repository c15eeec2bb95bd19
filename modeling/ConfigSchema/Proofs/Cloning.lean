import ConfigSchema.Proofs.Course
import ConfigSchema.Proofs.Identity
import ConfigSchema.Proofs.Location

/-!
# `Course.closed_cloned` — what is injected has callables of its own

A default is stored in a schema, and what is injected is a copy of it. The copy has callables of its own: each stored
callable is rebound to the next identity of the supply, as often as it occurs. So the identities that a validation
draws number the callables of the defaults that it injects, in the order of its log, and by its identity each injected
callable tells which stored callable it is a clone of (`Clones`).

What is at a place of a value stays there, and new places come with injections only. So between a value and what a
validation leaves of it, the callables at new places are clones of the injected defaults (`Value.Cloned`). That is a
course that injections keep.
-/

namespace ConfigSchema

/-! ## Clones -/

/-- The value has the callable `f` at `place`. -/
def Value.Holds (v : Value) (place : List Segment) (f : Callable) : Prop := v.at? place = some (.function f)

/-- **Clones of `originals`.** What is found are the originals, each under the identity that was drawn for it: these
    are the identities from `next` on, in turn. At two places no identity is found twice. -/
structure Clones (next : Nat) (originals : List Callable) (found : List Segment → Callable → Prop) : Prop where
  rebound : ∀ {place f}, found place f → ∃ (k : Nat) (g : Callable), originals[k]? = some g ∧ f = g.rebind (next + k)
  apart : ∀ {place place' f f'}, found place f → found place' f' → f.id = f'.id → place = place'

namespace Clones

variable {next : Nat} {originals first second : List Callable} {found found' found'' : List Segment → Callable → Prop}

theorem of_nothing (h : ∀ place f, ¬ found place f) : Clones next [] found :=
  ⟨fun hf => absurd hf (h _ _), fun hf => absurd hf (h _ _)⟩

/-- The identities of clones are those that were drawn. -/
theorem drawn (h : Clones next originals found) {place : List Segment} {f : Callable} (hf : found place f) :
    next ≤ f.id ∧ f.id < next + originals.length := by
  obtain ⟨k, g, hg, rfl⟩ := h.rebound hf
  obtain ⟨hk, -⟩ := List.getElem?_eq_some_iff.mp hg
  show next ≤ next + k ∧ next + k < next + originals.length
  omega

theorem mono (h : Clones next originals found) (hfound : ∀ {place f}, found' place f → found place f) :
    Clones next originals found' :=
  ⟨fun hf => h.rebound (hfound hf), fun hf hf' => h.apart (hfound hf) (hfound hf')⟩

/-- Clones that are found elsewhere are still clones. -/
theorem relocate (h : Clones next originals found) (move : List Segment → List Segment) :
    Clones next originals fun place f => ∃ inner, move inner = place ∧ found inner f where
  rebound := by
    rintro _ f ⟨inner, rfl, hf⟩
    exact h.rebound hf
  apart := by
    rintro _ _ f f' ⟨inner, rfl, hf⟩ ⟨inner', rfl, hf'⟩ hid
    rw [h.apart hf hf' hid]

/-- What is drawn later is drawn apart. -/
theorem append (h : Clones next first found) (h' : Clones (next + first.length) second found')
    (hfound : ∀ {place f}, found'' place f → found place f ∨ found' place f) :
    Clones next (first ++ second) found'' where
  rebound hf := by
    rcases hfound hf with hf | hf
    · obtain ⟨k, g, hg, rfl⟩ := h.rebound hf
      obtain ⟨hk, -⟩ := List.getElem?_eq_some_iff.mp hg
      exact ⟨k, g, by rw [List.getElem?_append_left hk, hg], rfl⟩
    · obtain ⟨k, g, hg, rfl⟩ := h'.rebound hf
      refine ⟨first.length + k, g, ?_, by rw [Nat.add_assoc]⟩
      rw [List.getElem?_append_right (Nat.le_add_right _ _), Nat.add_sub_cancel_left, hg]
  apart hf hf' hid := by
    rcases hfound hf with hf | hf <;> rcases hfound hf' with hf' | hf'
    · exact h.apart hf hf' hid
    · have hlt := (h.drawn hf).2
      have hle := (h'.drawn hf').1
      omega
    · have hlt := (h.drawn hf').2
      have hle := (h'.drawn hf).1
      omega
    · exact h'.apart hf hf' hid

end Clones

/-! ### Copies -/

/-- The segment of an element once another element stands in front. -/
def Segment.behind : Segment → Segment
  | .index i => .index (i + 1)
  | .key name => .key name

namespace Value

variable {v w : Value} {place : List Segment} {f : Callable}

theorem not_holds_array_nil : ¬ (array []).Holds place f := by
  cases place with
  | nil => simp [Holds, at?]
  | cons segment inner => cases segment <;> simp [Holds, at?, item?]

theorem not_holds_object_nil : ¬ (object []).Holds place f := by
  cases place with
  | nil => simp [Holds, at?]
  | cons segment inner => cases segment <;> simp [Holds, at?, item?]

/-- A callable in an array is one of the first element, or one of the elements behind it. -/
theorem Holds.array_cons {rest : List Value} (h : (array (v :: rest)).Holds place f) :
    (∃ inner, .index 0 :: inner = place ∧ v.Holds inner f) ∨
      ∃ inner, inner.modifyHead Segment.behind = place ∧ (array rest).Holds inner f := by
  cases place with
  | nil => simp [Holds, at?] at h
  | cons segment inner =>
      cases segment with
      | key key => simp [Holds, at?, item?] at h
      | index i =>
          cases i with
          | zero => exact .inl ⟨inner, rfl, by simpa [Holds, at?, item?] using h⟩
          | succ i => exact .inr ⟨.index i :: inner, by rfl, by simpa [Holds, at?, item?] using h⟩

/-- A callable in an object is one of the first entry, or one of the entries behind it. -/
theorem Holds.object_cons {key : String} {rest : Fields Value} (h : (object ((key, v) :: rest)).Holds place f) :
    (∃ inner, .key key :: inner = place ∧ v.Holds inner f) ∨ (object rest).Holds place f := by
  cases place with
  | nil => simp [Holds, at?] at h
  | cons segment inner =>
      cases segment with
      | index i => simp [Holds, at?, item?] at h
      | key k =>
          by_cases hk : k = key
          · subst hk
            exact .inl ⟨inner, rfl, by simpa [Holds, at?, item?] using h⟩
          · refine .inr ?_
            simpa [Holds, at?, item?, List.lookup_cons, beq_false_of_ne hk] using h

mutual

/-- **A copy has clones of the callables**, one for each occurrence, and draws no other identities. -/
theorem clones_deepCopy : ∀ (v : Value) (next : Nat),
    (v.deepCopy.start next).next = next + v.callables.length ∧
      Clones next v.callables (v.deepCopy.start next).result.Holds
  | array items, next => by
      rw [deepCopy, Run.start_map, callables]
      exact clones_deepCopyItems items next
  | object fields, next => by
      rw [deepCopy, Run.start_map, callables]
      exact clones_deepCopyFields fields next
  | function g, next => by
      refine ⟨rfl, ⟨fun {place f} h => ?_, fun {place place' f f'} h h' _ => ?_⟩⟩
      · cases place with
        | nil => exact ⟨0, g, rfl, by simpa [deepCopy, Holds, at?] using h.symm⟩
        | cons segment inner => simp [deepCopy, Holds, at?, item?] at h
      · cases place with
        | nil =>
            cases place' with
            | nil => rfl
            | cons segment inner => simp [deepCopy, Holds, at?, item?] at h'
        | cons segment inner => simp [deepCopy, Holds, at?, item?] at h
  | undefined, next | null, next | bool _, next | number _, next | string _, next | regexp _, next => by
      refine ⟨rfl, .of_nothing fun place f h => ?_⟩
      cases place <;> simp [deepCopy, Holds, at?, item?] at h

theorem clones_deepCopyItems : ∀ (items : List Value) (next : Nat),
    ((deepCopyItems items).start next).next = next + (callablesOfItems items).length ∧
      Clones next (callablesOfItems items) (array ((deepCopyItems items).start next).result).Holds
  | [], _ => ⟨rfl, .of_nothing fun _ _ => not_holds_array_nil⟩
  | v :: rest, next => by
      obtain ⟨hnext, hv⟩ := clones_deepCopy v next
      obtain ⟨hnext', hrest⟩ := clones_deepCopyItems rest (v.deepCopy.start next).next
      rw [hnext] at hnext' hrest
      simp only [deepCopyItems, callablesOfItems, Run.start_bind, Run.start_pure, hnext, List.length_append]
      refine ⟨by rw [hnext', Nat.add_assoc], ?_⟩
      exact (hv.relocate (.index 0 :: ·)).append (hrest.relocate (List.modifyHead Segment.behind)) Holds.array_cons

theorem clones_deepCopyFields : ∀ (fields : List (String × Value)) (next : Nat),
    ((deepCopyFields fields).start next).next = next + (callablesOfFields fields).length ∧
      Clones next (callablesOfFields fields) (object ((deepCopyFields fields).start next).result).Holds
  | [], _ => ⟨rfl, .of_nothing fun _ _ => not_holds_object_nil⟩
  | (key, v) :: rest, next => by
      obtain ⟨hnext, hv⟩ := clones_deepCopy v next
      obtain ⟨hnext', hrest⟩ := clones_deepCopyFields rest (v.deepCopy.start next).next
      rw [hnext] at hnext' hrest
      simp only [deepCopyFields, callablesOfFields, Run.start_bind, Run.start_pure, hnext, List.length_append]
      refine ⟨by rw [hnext', Nat.add_assoc], ?_⟩
      exact (hv.relocate (.key key :: ·)).append hrest Holds.object_cons

end

/-! ### What a validation clones -/

/-- **Between `v` and `w` the originals were cloned.** The places of `v` are places of `w`, where `w` has no callables
    but those that `v` has there. The callables at other places are clones. -/
structure Cloned (next : Nat) (originals : List Callable) (v w : Value) : Prop where
  kept : ∀ {place x}, v.at? place = some x → ∃ y, w.at? place = some y ∧ ∀ f, y = function f → x = function f
  clones : Clones next originals fun place f => v.at? place = none ∧ w.Holds place f

namespace Cloned

variable {u : Value} {next : Nat} {originals first second : List Callable}

theorem refl (next : Nat) (v : Value) : Cloned next [] v v where
  kept h := ⟨_, h, fun _ hf => hf⟩
  clones := .of_nothing fun _ _ h => absurd (h.1.symm.trans h.2) (Option.some_ne_none _).symm

theorem trans (h : Cloned next first u v) (h' : Cloned (next + first.length) second v w) :
    Cloned next (first ++ second) u w where
  kept hx := by
    obtain ⟨y, hy, hxy⟩ := h.kept hx
    obtain ⟨z, hz, hyz⟩ := h'.kept hy
    exact ⟨z, hz, fun f hf => hxy f (hyz f hf)⟩
  clones := by
    refine h.clones.append h'.clones ?_
    rintro place f ⟨hu, hw⟩
    cases hv : v.at? place with
    | none => exact .inr ⟨rfl, hw⟩
    | some x =>
        obtain ⟨y, hy, hxy⟩ := h'.kept hv
        have hx : x = function f := hxy f (Option.some.inj (hy.symm.trans hw))
        exact .inl ⟨hu, by rw [Holds, hv, hx]⟩

/-- **Cloning in a part** is cloning in the whole, if the whole shows its part under one segment, or not at all, and
    shows nothing else that depends on it. -/
theorem inside (whole : Value → Value) (segment : Segment) (hroot : ∀ x f, whole x ≠ function f)
    (hitem : ∀ other, (other = segment ∧ ∀ x, (whole x).item? other = some x) ∨
      ∀ x y, (whole x).item? other = (whole y).item? other)
    (h : Cloned next originals v w) : Cloned next originals (whole v) (whole w) := by
  -- At each place below the root, the whole shows what its part shows further in, or the same before and after.
  have hplace : ∀ other inner, (other = segment ∧ ∀ x, (whole x).at? (other :: inner) = x.at? inner) ∨
      (whole v).at? (other :: inner) = (whole w).at? (other :: inner) := by
    intro other inner
    rcases hitem other with ⟨hother, hpart⟩ | hsame
    · exact .inl ⟨hother, fun x => by rw [at?, hpart x, Option.bind_some]⟩
    · exact .inr (by rw [at?, at?, hsame v w])
  refine ⟨?_, (h.clones.relocate (segment :: ·)).mono ?_⟩
  · intro place x hx
    cases place with
    | nil => exact ⟨whole w, rfl, fun f hf => absurd hf (hroot w f)⟩
    | cons other inner =>
        rcases hplace other inner with ⟨-, hpart⟩ | hsame
        · rw [hpart] at hx ⊢
          exact h.kept hx
        · exact ⟨x, hsame ▸ hx, fun _ hf => hf⟩
  · rintro place f ⟨hv, hw⟩
    cases place with
    | nil => exact absurd hv (Option.some_ne_none _)
    | cons other inner =>
        unfold Holds at hw
        rcases hplace other inner with ⟨hother, hpart⟩ | hsame
        · rw [hpart] at hv hw
          exact ⟨inner, by rw [hother], hv, hw⟩
        · rw [← hsame, hv] at hw
          exact absurd hw (Option.some_ne_none _).symm

theorem element (before after : List Value) (h : Cloned next originals v w) :
    Cloned next originals (array (before ++ v :: after)) (array (before ++ w :: after)) := by
  refine h.inside (fun x => array (before ++ x :: after)) (.index before.length) (by simp) fun other => ?_
  cases other with
  | key key => exact .inr fun _ _ => rfl
  | index i =>
      by_cases hi : i = before.length
      · subst hi
        exact .inl ⟨rfl, fun x => by simp [item?]⟩
      · refine .inr fun x y => ?_
        simp only [item?, List.getElem?_append]
        split
        · rfl
        · obtain ⟨k, hk⟩ : ∃ k, i - before.length = k + 1 := ⟨i - before.length - 1, by omega⟩
          rw [hk, List.getElem?_cons_succ, List.getElem?_cons_succ]

theorem entry (before after : Fields Value) (key : String) (h : Cloned next originals v w) :
    Cloned next originals (object (before ++ (key, v) :: after)) (object (before ++ (key, w) :: after)) := by
  refine h.inside (fun x => object (before ++ (key, x) :: after)) (.key key) (by simp) fun other => ?_
  cases other with
  | index i => exact .inr fun _ _ => rfl
  | key k =>
      -- An entry in front under the same key hides the part.
      simp only [item?, List.lookup_append]
      cases before.lookup k with
      | some x => exact .inr fun _ _ => rfl
      | none =>
          by_cases hk : k = key
          · subst hk
            exact .inl ⟨rfl, fun x => by simp⟩
          · exact .inr fun x y => by simp [List.lookup_cons, beq_false_of_ne hk]

/-- A copy stands behind the entries of an object. -/
theorem inject {fields : Fields Value} {key : String} {copy : Value} (h : Clones next originals copy.Holds) :
    Cloned next originals (object fields) (object (fields ++ [(key, copy)])) := by
  have hlookup : ∀ k, (fields ++ [(key, copy)]).lookup k =
      (fields.lookup k).or (if k = key then some copy else none) := by
    intro k
    rw [List.lookup_append]
    by_cases hk : k = key
    · simp [hk]
    · simp [List.lookup_cons, hk, beq_false_of_ne hk]
  refine ⟨?_, (h.relocate (.key key :: ·)).mono ?_⟩
  · intro place x hx
    match place with
    | [] => exact ⟨_, rfl, fun f hf => absurd hf (by simp)⟩
    | .index i :: inner => exact absurd hx (Option.some_ne_none x).symm
    | .key k :: inner =>
        obtain ⟨item, hitem, hinner⟩ := Option.bind_eq_some_iff.mp hx
        have hfound : fields.lookup k = some item := hitem
        refine ⟨x, ?_, fun _ hf => hf⟩
        rw [at?, item?, hlookup, hfound]
        exact hinner
  · rintro place f ⟨hv, hw⟩
    match place with
    | [] => exact absurd hv (Option.some_ne_none _)
    | .index i :: inner => exact absurd hw (Option.some_ne_none _).symm
    | .key k :: inner =>
        rw [Holds, at?, item?, hlookup] at hw
        rw [at?, item?] at hv
        cases hfound : fields.lookup k with
        | some item =>
            -- The place is one of a present entry, which stays as it is.
            rw [hfound] at hv hw
            exact absurd (hv.symm.trans hw) (Option.some_ne_none _).symm
        | none =>
            rw [hfound, Option.none_or] at hw
            by_cases hk : k = key
            · rw [if_pos hk] at hw
              exact ⟨inner, by rw [hk], hw⟩
            · rw [if_neg hk] at hw
              exact absurd hw (Option.some_ne_none _).symm

end Cloned

end Value

/-- The callables that are cloned for some injections, in turn: those of the defaults. -/
def Injection.originals (journal : List Injection) : List Callable := journal.flatMap fun i => i.default.callables

/-- **Injections clone the callables of their defaults**, and draw an identity for each of them. -/
theorem Course.closed_cloned (Admits : List String → Injection → Prop) :
    Course.Closed Admits fun n v journal m w =>
      m = n + (Injection.originals journal).length ∧ v.Cloned n (Injection.originals journal) w where
  refl next v := ⟨rfl, .refl next v⟩
  trans := by
    rintro n m k u v w first second ⟨rfl, h⟩ ⟨rfl, h'⟩
    unfold Injection.originals at h h' ⊢
    rw [List.flatMap_append, List.length_append, Nat.add_assoc]
    exact ⟨rfl, h.trans h'⟩
  inject := by
    intro next fields i _ copied
    obtain ⟨hnext, hcopy⟩ := i.default.clones_deepCopy next
    unfold Injection.originals
    rw [List.flatMap_singleton]
    exact ⟨hnext, .inject hcopy⟩
  element before after h := ⟨h.1, h.2.element before after⟩
  entry before after key h := ⟨h.1, h.2.entry before after key⟩

end ConfigSchema
