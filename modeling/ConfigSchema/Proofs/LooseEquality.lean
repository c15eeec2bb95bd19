import Mathlib.Data.List.Perm.Subperm
import ConfigSchema.Proofs.Location
import ConfigSchema.Proofs.WholeEquality

/-!
# `Value.beq_iff_at` — loose equality, place by place

Loose equality descends into two values at once: along arrays by position, and through objects by key, each key of the
first being looked up in the second. Where keys are distinct this is one comparison for all containers, of what
stands under each segment (`beq_iff_item`). So two values are equal exactly if every path leads to a place in both or
in neither, and the two places have equal roots (`beq_iff_at`).

Whether loose equality is an equivalence is therefore decided at the roots, and there only numbers are in question.
Two numbers that are signed words are compared as integers, all other pairs by their nearest doubles. A number between
two signed words that only rounds to both links them, although they differ. `beq_equivalence` says that nothing else
breaks transitivity: if the first value equals the second and the second the third, then the first equals the third
unless the two hold different signed words at one place (`ClashAt`).
-/

namespace ConfigSchema

namespace Value

/-! ## Items -/

/-- What stands under a segment is an element of an array, or an entry of an object. -/
theorem mem_of_item? {v x : Value} {segment : Segment} (h : v.item? segment = some x) :
    (∃ items, v = array items ∧ x ∈ items) ∨ ∃ fields key, v = object fields ∧ (key, x) ∈ fields := by
  cases v with
  | array items =>
      cases segment with
      | index i => exact .inl ⟨items, rfl, List.mem_of_getElem? h⟩
      | key key => exact absurd h (Option.some_ne_none x).symm
  | object fields =>
      cases segment with
      | key key => exact .inr ⟨fields, key, rfl, Fields.mem_of_lookup h⟩
      | index i => exact absurd h (Option.some_ne_none x).symm
  | _ => exact absurd h (Option.some_ne_none x).symm

/-- An item of a container is smaller than the container. -/
theorem sizeOf_lt_of_item? {v x : Value} {segment : Segment} (h : v.item? segment = some x) :
    sizeOf x < sizeOf v := by
  rcases mem_of_item? h with ⟨items, rfl, hx⟩ | ⟨fields, key, rfl, hx⟩
  · have hlt := List.sizeOf_lt_of_mem hx
    rw [array.sizeOf_spec]
    omega
  · have hlt := List.sizeOf_lt_of_mem hx
    rw [Prod.mk.sizeOf_spec] at hlt
    rw [object.sizeOf_spec]
    omega

theorem Distinct.of_item? {v x : Value} {segment : Segment} (hv : v.Distinct) (h : v.item? segment = some x) :
    x.Distinct := by
  rcases mem_of_item? h with ⟨items, rfl, hx⟩ | ⟨fields, key, rfl, hx⟩
  · exact distinctItems_iff.mp hv x hx
  · exact distinctFields_iff.mp hv.2 _ hx

/-! ## One level -/

/-- **Equality of the roots.** Arrays are alike, and so are objects, whatever they hold. -/
def headEq : Value → Value → Bool
  | array _, array _ => true
  | object _, object _ => true
  | regexp p, regexp q => p.source = q.source
  | a, b => strictEq a b

/-- Both places are there and hold equal values, or neither is there. -/
abbrev EqAt (x y : Option Value) : Prop := Option.Rel (fun a b => a.beq b = true) x y

theorem beqItems_iff {xs ys : List Value} : beqItems xs ys = true ↔ ∀ i : Nat, EqAt xs[i]? ys[i]? := by
  induction xs generalizing ys with
  | nil =>
      cases ys with
      | nil => exact ⟨fun _ _ => .none, fun _ => rfl⟩
      | cons y ys => exact ⟨fun h => absurd h (by simp [beqItems]), fun h => nomatch h 0⟩
  | cons x xs ih =>
      cases ys with
      | nil => exact ⟨fun h => absurd h (by simp [beqItems]), fun h => nomatch h 0⟩
      | cons y ys =>
          rw [beqItems, Bool.and_eq_true, ih]
          constructor
          · rintro ⟨hxy, hrest⟩ i
            cases i with
            | zero => exact .some hxy
            | succ i => exact hrest i
          · intro h
            refine ⟨?_, fun i => h (i + 1)⟩
            cases h 0 with
            | some hxy => exact hxy

theorem beqFields_iff {xs ys : Fields Value} :
    beqFields xs ys = true ↔ ∀ e ∈ xs, EqAt (some e.2) (ys.lookup e.1) := by
  induction xs with
  | nil => exact ⟨fun _ _ h => absurd h List.not_mem_nil, fun _ => rfl⟩
  | cons e xs ih =>
      obtain ⟨key, x⟩ := e
      rw [beqFields, Bool.and_eq_true, ih, List.forall_mem_cons]
      refine and_congr_left' ?_
      cases ys.lookup key with
      | none => exact ⟨fun h => (nomatch h), fun h => (nomatch h)⟩
      | some y =>
          constructor
          · exact fun h => .some h
          · rintro ⟨h⟩
            exact h

/-- Objects with distinct keys are equal if they agree under every key. -/
theorem beq_object_iff {xs ys : Fields Value} (hx : (Fields.keys xs).Nodup) (hy : (Fields.keys ys).Nodup) :
    beq (object xs) (object ys) = true ↔ ∀ key, EqAt (xs.lookup key) (ys.lookup key) := by
  rw [beq, Bool.and_eq_true, decide_eq_true_iff, beqFields_iff]
  constructor
  · rintro ⟨hlength, h⟩ key
    cases hxs : xs.lookup key with
    | some x => exact h _ (Fields.mem_of_lookup hxs)
    | none =>
        -- As many keys, all of them found: the second object has no other.
        have hsub : Fields.keys xs ⊆ Fields.keys ys := by
          intro k hk
          obtain ⟨e, he, rfl⟩ := List.mem_map.mp hk
          have heq := h e he
          by_contra hys
          rw [Fields.lookup_eq_none_iff_notMem.mpr hys] at heq
          exact nomatch heq
        have hperm := (List.subperm_of_subset hx hsub).perm_of_length_le (by simp [Fields.keys, hlength])
        rw [Fields.lookup_eq_none_iff_notMem, hperm.mem_iff, ← Fields.lookup_eq_none_iff_notMem] at hxs
        rw [hxs]
        exact .none
  · intro h
    have hkeys : ∀ key, key ∈ Fields.keys xs ↔ key ∈ Fields.keys ys := by
      intro key
      have heq := h key
      rw [← not_iff_not, ← Fields.lookup_eq_none_iff_notMem, ← Fields.lookup_eq_none_iff_notMem]
      cases hxs : xs.lookup key <;> cases hys : ys.lookup key <;> rw [hxs, hys] at heq <;> simp at heq ⊢
    have hlength : xs.length = ys.length := by
      have hperm := (List.perm_ext_iff_of_nodup hx hy).mpr hkeys
      simpa [Fields.keys] using hperm.length_eq
    refine ⟨hlength, fun e he => ?_⟩
    rw [← Fields.lookup_of_mem hx he]
    exact h e.1

/-- **One level of loose equality.** The roots are equal, and so is what stands under each segment. -/
theorem beq_iff_item {v w : Value} (hv : v.Distinct) (hw : w.Distinct) :
    v.beq w = true ↔ v.headEq w = true ∧ ∀ segment, EqAt (v.item? segment) (w.item? segment) := by
  cases v with
  | array xs =>
      cases w with
      | array ys =>
          rw [beq, beqItems_iff]
          refine ⟨fun h => ⟨rfl, fun segment => ?_⟩, fun h i => h.2 (.index i)⟩
          cases segment with
          | index i => exact h i
          | key key => exact .none
      | _ => exact ⟨fun h => absurd h (by simp [beq, strictEq]), fun h => absurd h.1 (by simp [headEq, strictEq])⟩
  | object xs =>
      cases w with
      | object ys =>
          rw [beq_object_iff hv.1 hw.1]
          refine ⟨fun h => ⟨rfl, fun segment => ?_⟩, fun h key => h.2 (.key key)⟩
          cases segment with
          | key key => exact h key
          | index i => exact .none
      | _ => exact ⟨fun h => absurd h (by simp [beq, strictEq]), fun h => absurd h.1 (by simp [headEq, strictEq])⟩
  | _ =>
      -- Without items there is nothing to compare but the roots.
      cases w <;> simp [beq, headEq, strictEq, item?]

/-! ## All places -/

/-- Both places are there and have equal roots, or neither is there. -/
abbrev HeadEqAt (x y : Option Value) : Prop := Option.Rel (fun a b => a.headEq b = true) x y

theorem headEqAt_bind_iff {x y : Option Value} :
    (∀ path, HeadEqAt (x.bind fun a => a.at? path) (y.bind fun b => b.at? path)) ↔
      Option.Rel (fun a b => ∀ path, HeadEqAt (a.at? path) (b.at? path)) x y := by
  cases x with
  | none =>
      cases y with
      | none => exact ⟨fun _ => .none, fun _ _ => .none⟩
      | some b => exact ⟨fun h => (nomatch h []), fun h => nomatch h⟩
  | some a =>
      cases y with
      | none => exact ⟨fun h => (nomatch h []), fun h => nomatch h⟩
      | some b =>
          constructor
          · exact fun h => .some h
          · rintro ⟨h⟩
            exact h

/-- **Loose equality, place by place.** -/
theorem beq_iff_at (v w : Value) (hv : v.Distinct) (hw : w.Distinct) :
    v.beq w = true ↔ ∀ path, HeadEqAt (v.at? path) (w.at? path) := by
  have hitems : ∀ segment, EqAt (v.item? segment) (w.item? segment) ↔
      ∀ path, HeadEqAt (v.at? (segment :: path)) (w.at? (segment :: path)) := by
    intro segment
    refine Iff.trans ?_ headEqAt_bind_iff.symm
    cases hx : v.item? segment with
    | none => cases w.item? segment <;> simp
    | some x =>
        cases hy : w.item? segment with
        | none => simp
        | some y =>
            have := sizeOf_lt_of_item? hx
            have ih := beq_iff_at x y (hv.of_item? hx) (hw.of_item? hy)
            simp [ih]
  rw [beq_iff_item hv hw, forall_congr' hitems]
  constructor
  · rintro ⟨hroot, hbelow⟩ path
    cases path with
    | nil => exact .some hroot
    | cons segment path => exact hbelow segment path
  · intro h
    refine ⟨?_, fun segment path => h (segment :: path)⟩
    cases h [] with
    | some hroot => exact hroot
termination_by sizeOf v

/-! ## Equal roots -/

theorem headEq_refl (v : Value) : v.headEq v = true := by
  cases v <;> simp [headEq, strictEq, Number.beq_refl, Callable.same]

theorem headEq_comm (v w : Value) : v.headEq w = w.headEq v := by
  cases v <;> cases w <;> simp [headEq, strictEq, Number.beq_comm, Callable.same, eq_comm]

/-- Roots that are equal, and no numbers, are equal to the same roots. -/
theorem headEq_congr {u v : Value} (hkind : u.kind ≠ .number) (h : u.headEq v = true) (w : Value) :
    u.headEq w = v.headEq w := by
  cases u with
  | number a => exact absurd rfl hkind
  | regexp p =>
      cases v with
      | regexp q =>
          have hsource : p.source = q.source := of_decide_eq_true h
          cases w <;> simp [headEq, strictEq, hsource]
      | _ => exact absurd h (by simp [headEq, strictEq])
  | function f =>
      cases v with
      | function g =>
          have hid : f.id = g.id := of_decide_eq_true h
          cases w <;> simp [headEq, strictEq, Callable.same, hid]
      | _ => exact absurd h (by simp [headEq, strictEq])
  | _ =>
      cases v <;> simp [headEq, strictEq] at h
      all_goals cases w <;> simp [headEq, strictEq, h]

/-- **The roots clash**: they are signed words, and differ. -/
def Clash (v w : Value) : Prop := ∃ i ∈ v.toInt64?, ∃ j ∈ w.toInt64?, i ≠ j

theorem not_clash_iff {v w : Value} : ¬ Clash v w ↔ ∀ i ∈ v.toInt64?, ∀ j ∈ w.toInt64?, i = j := by
  simp only [Clash, not_exists, not_and, not_not]

/-- Numbers that are equal to the same number have one nearest double, and are equal unless they clash. -/
theorem beq_number_trans {a b c : Number} (hab : a.beq b = true) (hbc : b.beq c = true) :
    a.beq c = true ↔ ¬ Clash (number a) (number c) := by
  have hunits : a.units = c.units := (Number.beq_iff.mp hab).1.trans (Number.beq_iff.mp hbc).1
  rw [Number.beq_iff, not_clash_iff]
  exact and_iff_right hunits

/-- Roots that are equal to the same root are equal unless they clash. -/
theorem headEq_trans {u v w : Value} (huv : u.headEq v = true) (hvw : v.headEq w = true) :
    u.headEq w = true ↔ ¬ Clash u w := by
  by_cases hkind : u.kind = .number
  · cases u with
    | number a =>
        cases v with
        | number b =>
            cases w with
            | number c => exact beq_number_trans huv hvw
            | _ => exact absurd hvw (by simp [headEq, strictEq])
        | _ => exact absurd huv (by simp [headEq, strictEq])
    | _ => exact absurd hkind (by simp [kind])
  · have hnone : u.toInt64? = none := by
      cases u with
      | number a => exact absurd rfl hkind
      | _ => rfl
    have hclash : ¬ Clash u w := not_clash_iff.mpr (by simp [hnone])
    rw [headEq_congr hkind huv, hvw]
    exact ⟨fun _ => hclash, fun _ => rfl⟩

/-! ## Equal places -/

/-- Both places are there, and their roots clash. -/
def ClashAt (x y : Option Value) : Prop := ∃ a ∈ x, ∃ b ∈ y, Clash a b

theorem HeadEqAt.refl (x : Option Value) : HeadEqAt x x := by
  cases x with
  | none => exact .none
  | some a => exact .some a.headEq_refl

theorem HeadEqAt.symm {x y : Option Value} (h : HeadEqAt x y) : HeadEqAt y x := by
  cases h with
  | none => exact .none
  | some h => exact .some (headEq_comm _ _ ▸ h)

theorem HeadEqAt.trans_iff {x y z : Option Value} (hxy : HeadEqAt x y) (hyz : HeadEqAt y z) :
    HeadEqAt x z ↔ ¬ ClashAt x z := by
  cases hxy with
  | none =>
      cases hyz with
      | none => simp [ClashAt]
  | some hab =>
      cases hyz with
      | some hbc => simp [ClashAt, headEq_trans hab hbc]

/-- A signed word is equal to no other signed word. -/
theorem mem_toInt64?_of_headEq {a b : Value} {i : Int} (h : a.headEq b = true) (hi : i ∈ a.toInt64?)
    (hsigned : b.kind = .number → b.toInt64?.isSome) : i ∈ b.toInt64? := by
  cases a with
  | number m =>
      cases b with
      | number n =>
          obtain ⟨j, hj⟩ := Option.isSome_iff_exists.mp (hsigned rfl)
          exact (Number.beq_iff.mp h).2 i hi j hj ▸ hj
      | _ => exact absurd h (by simp [headEq, strictEq])
  | _ => exact absurd hi (by simp [toInt64?])

theorem HeadEqAt.not_clashAt {x y z : Option Value} (hxy : HeadEqAt x y) (hyz : HeadEqAt y z)
    (hsigned : ∀ b ∈ y, b.kind = .number → b.toInt64?.isSome) : ¬ ClashAt x z := by
  rintro ⟨a, rfl, c, rfl, i, hi, j, hj, hij⟩
  cases hxy with
  | some hab =>
      cases hyz with
      | some hbc =>
          have hb := hsigned _ rfl
          have hib := mem_toInt64?_of_headEq hab hi hb
          have hjb := mem_toInt64?_of_headEq (headEq_comm _ _ ▸ hbc) hj hb
          exact hij (Option.mem_unique hib hjb)

/-! ## Equal values -/

variable {u v w : Value}

theorem beq_refl (hu : u.Distinct) : u.beq u = true :=
  (beq_iff_at u u hu hu).mpr fun path => .refl (u.at? path)

theorem beq_symm (hu : u.Distinct) (hv : v.Distinct) (h : u.beq v = true) : v.beq u = true :=
  (beq_iff_at v u hv hu).mpr fun path => ((beq_iff_at u v hu hv).mp h path).symm

/-- Values that are equal to the same value are equal unless they clash somewhere. -/
theorem beq_trans_iff (hu : u.Distinct) (hv : v.Distinct) (hw : w.Distinct) (huv : u.beq v = true)
    (hvw : v.beq w = true) : u.beq w = true ↔ ∀ path, ¬ ClashAt (u.at? path) (w.at? path) := by
  rw [beq_iff_at u w hu hw]
  refine forall_congr' fun path => ?_
  exact ((beq_iff_at u v hu hv).mp huv path).trans_iff ((beq_iff_at v w hv hw).mp hvw path)

/-- **Loose equality is transitive through signed words**: between values that hold no other numbers. -/
theorem beq_trans_of_signed (hu : u.Distinct) (hv : v.Distinct) (hw : w.Distinct)
    (hsigned : ∀ path, ∀ b ∈ v.at? path, b.kind = .number → b.toInt64?.isSome) (huv : u.beq v = true)
    (hvw : v.beq w = true) : u.beq w = true := by
  rw [beq_trans_iff hu hv hw huv hvw]
  intro path
  exact ((beq_iff_at u v hu hv).mp huv path).not_clashAt ((beq_iff_at v w hv hw).mp hvw path) (hsigned path)

/-- **Loose equality is reflexive and symmetric.** It is transitive unless the outer two of three values clash. -/
theorem beq_equivalence (hu : u.Distinct) (hv : v.Distinct) (hw : w.Distinct) :
    u.beq u = true ∧ (u.beq v = true → v.beq u = true) ∧
      (u.beq v = true → v.beq w = true → (u.beq w = true ↔ ∀ path, ¬ ClashAt (u.at? path) (w.at? path))) :=
  ⟨beq_refl hu, beq_symm hu hv, beq_trans_iff hu hv hw⟩

/-- The keys of `u` and `v` are in different orders, and the sizes all round to `2⁶³`. -/
theorem beq_equivalence_cache :
    let name := regexp ⟨"^a", true⟩
    let entry (size : Whole) := array [number (.whole size), name]
    let u := object [("hit", function ⟨3, "log"⟩), ("cache", entry ⟨9223372036854775807, by decide, by decide⟩)]
    let v := object [("cache", entry ⟨9223372036854775808, by decide, by decide⟩), ("hit", function ⟨3, "log"⟩)]
    let w := object [("hit", function ⟨3, "log"⟩), ("cache", entry ⟨9223372036854775809, by decide, by decide⟩)]
    (u.Distinct ∧ v.Distinct ∧ w.Distinct) ∧ u.beq u = true ∧ u.beq v = true ∧ v.beq u = true ∧
      v.beq w = true ∧ (u.beq w = true ↔ ∀ path, ¬ ClashAt (u.at? path) (w.at? path)) := by
  intro name entry u v w
  have hu : u.Distinct := by simp [u, entry, name, Distinct, DistinctFields, DistinctItems]
  have hv : v.Distinct := by simp [v, entry, name, Distinct, DistinctFields, DistinctItems]
  have hw : w.Distinct := by simp [w, entry, name, Distinct, DistinctFields, DistinctItems]
  have huv : u.beq v = true := by decide +kernel
  have hvw : v.beq w = true := by decide +kernel
  obtain ⟨hrefl, hsymm, htrans⟩ := beq_equivalence hu hv hw
  exact ⟨⟨hu, hv, hw⟩, hrefl, huv, hsymm huv, hvw, htrans huv hvw⟩

/-- `2⁶³ - 1` equals `2⁶³`, which equals `2⁶³ - 2`, as they all have one nearest double; but both ends are signed
    words. -/
theorem beq_not_trans :
    let u := number (.whole ⟨9223372036854775807, by decide, by decide⟩)
    let v := number (.whole ⟨9223372036854775808, by decide, by decide⟩)
    let w := number (.whole ⟨9223372036854775806, by decide, by decide⟩)
    u.beq v = true ∧ v.beq w = true ∧ u.beq w = false := by
  decide +kernel

end Value

end ConfigSchema
