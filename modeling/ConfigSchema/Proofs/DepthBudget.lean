import ConfigSchema.Proofs.Alike

/-!
# `Schema.restarted` — carrying the depth limit through a custom check

A custom check that validates with another schema starts a walk of its own, at depth zero, under the limits
left at its position. `Schema.restarted s` is the custom check that does just this with `s`, and one expects
of it that it decides as `s` itself would have decided in its place, whatever is built around it
(`Context`).

The limits left are a count that stops at zero. So a custom check one level *below* the last one that may be
entered is told zero, like a custom check *on* the last level, and enters one container too many. With no
limit it is the other way round: the count of levels stops at the ceiling for the outer walk, but the walk
that starts anew has only what is left below the ceiling. `fill_restarted_iff` says that these are the only
differences, and that they are there.

## Contents
- `Context`: a schema with a hole, its `depth`, and the congruence `alikeAt_fill`.
- `Schema.restarted`, and where it decides alike (`alikeAt_restarted`).
- `Context.arrays` and `Value.nested`: the documents that tell the depth of a walk.
-/

namespace ConfigSchema

open Checker

/-! ## Schemas with a hole -/

/-- A schema with a hole in it, at which a default may be set. What stands beside the hole is arbitrary. -/
inductive Context where
  | hole
  | withDefault (default : Value) (inner : Context)
  | array (inner : Context)
  | field (before : Fields Schema) (key : String) (inner : Context) (after : Fields Schema) (suggest : Bool)
  | specific (advice : KeyAdvice) (before : Fields Schema) (key : String) (inner : Context)
      (after : Fields Schema) (element : Schema)
  | others (advice : KeyAdvice) (specifics : Fields Schema) (inner : Context)
  | alternative (before : List Schema) (inner : Context) (after : List Schema)
  | firstPart (inner : Context) (second : Schema)
  | secondPart (first : Schema) (inner : Context)
  | deprecated (inner : Context) (message? : Option String)

namespace Context

/-- The schema in which `s` fills the hole. -/
def fill : Context → Schema → Schema
  | hole, s => s
  | withDefault default inner, s => (inner.fill s).withDefault default
  | array inner, s => .array (inner.fill s)
  | field before key inner after suggest, s => .objectWith suggest (before ++ (key, inner.fill s) :: after)
  | specific advice before key inner after element, s =>
      .objects advice (before ++ (key, inner.fill s) :: after) element
  | others advice specifics inner, s => .objects advice specifics (inner.fill s)
  | alternative before inner after, s => .either (before ++ inner.fill s :: after)
  | firstPart inner second, s => .compose (inner.fill s) second
  | secondPart first inner, s => .compose first (inner.fill s)
  | deprecated inner message?, s => .deprecated (inner.fill s) message?

/-- The number of containers around the hole. -/
def depth : Context → Nat
  | hole => 0
  | withDefault _ inner => inner.depth
  | array inner => inner.depth + 1
  | field _ _ inner _ _ => inner.depth + 1
  | specific _ _ _ inner _ _ => inner.depth + 1
  | others _ _ inner => inner.depth + 1
  | alternative _ inner _ => inner.depth
  | firstPart inner _ => inner.depth
  | secondPart _ inner => inner.depth
  | deprecated inner _ => inner.depth

/-- Is the hole itself a declared key, so that the default of what fills it is injected? -/
def ReadsDefault : Context → Prop
  | hole => False
  | withDefault _ inner => inner.ReadsDefault
  | array inner => inner.ReadsDefault
  | field _ _ inner _ _ => inner = hole ∨ inner.ReadsDefault
  | specific _ _ _ inner _ _ => inner = hole ∨ inner.ReadsDefault
  | others _ _ inner => inner.ReadsDefault
  | alternative _ inner _ => inner.ReadsDefault
  | firstPart inner _ => inner.ReadsDefault
  | secondPart _ inner => inner.ReadsDefault
  | deprecated inner _ => inner.ReadsDefault

/-- The default of a filled schema does not come from what fills the hole, unless the hole is all there is. -/
theorem default?_fill {c : Context} {s t : Schema} (h : c = hole → s.default? = t.default?) :
    (c.fill s).default? = (c.fill t).default? := by
  cases c with
  | hole => exact h rfl
  | _ => rfl

end Context

/-- Walking into a container and then `n` levels further is walking `n + 1` levels. -/
theorem Position.entered_succ {n : Nat} {pos : Position} (hpos : pos.exceeded = false)
    (h : ∀ k < n, (pos.descend.down k).exceeded = false) : ∀ k < n + 1, (pos.down k).exceeded = false := by
  intro k hk
  cases k with
  | zero => exact hpos
  | succ k => exact h k (Nat.lt_of_succ_lt_succ hk)

namespace Schema

/-- Fields among which one is exchanged for an alike one. -/
theorem alikeFields_exchange {p : Position} {key : String} {s t : Schema} (hd : s.default? = t.default?)
    (h : AlikeAt p p s t) (before after : Fields Schema) :
    List.Forall₂ (AlikeFields p p) (before ++ (key, s) :: after) (before ++ (key, t) :: after) := by
  have hself : ∀ fields : Fields Schema, List.Forall₂ (AlikeFields p p) fields fields :=
    fun fields => List.forall₂_same.mpr fun _ _ => ⟨rfl, rfl, AlikeAt.refl p _⟩
  exact List.rel_append (hself before) (.cons ⟨rfl, hd, h⟩ (hself after))

/-- **Congruence.** If two schemas decide alike where the hole is reached, the schemas in which they fill the
    hole decide alike. -/
theorem alikeAt_fill {c : Context} {s t : Schema} (hd : c.ReadsDefault → s.default? = t.default?)
    {pos : Position}
    (h : (∀ k < c.depth, (pos.down k).exceeded = false) →
      AlikeAt (pos.down c.depth) (pos.down c.depth) s t) :
    AlikeAt pos pos (c.fill s) (c.fill t) := by
  induction c generalizing pos with
  | hole => exact h fun k hk => absurd hk (Nat.not_lt_zero k)
  | withDefault default inner ih =>
      have hinner := ih hd h
      rw [alikeAt_iff_rule] at hinner ⊢
      exact hinner
  | array inner ih =>
      -- The hole lies one level further down, and is reached if this array may be entered.
      refine alikeAt_array rfl fun hpos => ih hd fun hdown => ?_
      exact h (Position.entered_succ hpos hdown)
  | field before key inner after suggest ih =>
      refine alikeAt_object rfl fun hpos => ?_
      refine alikeFields_exchange (Context.default?_fill fun hh => hd (.inl hh)) ?_ before after
      exact ih (fun hr => hd (.inr hr)) fun hdown => h (Position.entered_succ hpos hdown)
  | specific advice before key inner after element ih =>
      refine alikeAt_objects rfl (fun hpos => ?_) fun _ => AlikeAt.refl _ element
      refine alikeFields_exchange (Context.default?_fill fun hh => hd (.inl hh)) ?_ before after
      exact ih (fun hr => hd (.inr hr)) fun hdown => h (Position.entered_succ hpos hdown)
  | others advice specifics inner ih =>
      refine alikeAt_objects rfl (fun _ => ?_) fun hpos => ih hd fun hdown => ?_
      · exact List.forall₂_same.mpr fun _ _ => ⟨rfl, rfl, AlikeAt.refl _ _⟩
      · exact h (Position.entered_succ hpos hdown)
  | alternative before inner after ih =>
      have hself : ∀ l : List Schema, List.Forall₂ (AlikeAt pos pos) l l :=
        fun l => List.forall₂_same.mpr fun _ _ => AlikeAt.refl pos _
      exact alikeAt_either (List.rel_append (hself before) (.cons (ih hd h) (hself after)))
  | firstPart inner second ih => exact alikeAt_compose (ih hd h) (AlikeAt.refl pos second)
  | secondPart first inner ih => exact alikeAt_compose (AlikeAt.refl pos first) (ih hd h)
  | deprecated inner message? ih => exact alikeAt_deprecated (ih hd h)

/-! ## Starting anew -/

/-- The custom check that validates with `s`, under the limits left at its position. -/
def restarted (s : Schema) : Schema := custom s.name fun limits v => s.validate limits v

theorem check_restarted (s : Schema) (pos : Position) (v : Value) :
    s.restarted.check pos v = s.check (.root pos.remaining) v := rfl

/-- It decides as `s` where the limits left tell the same levels from those too deep. -/
theorem alikeAt_restarted {s : Schema} (hc : s.CustomFree) {pos : Position}
    (h : ∀ k < s.height, ((Position.root pos.remaining).down k).exceeded = (pos.down k).exceeded) :
    AlikeAt pos pos s.restarted s := by
  intro v
  rw [check_restarted]
  exact alikeAt_self hc h v

end Schema

/-! ## Measuring a walk -/

/-- The hole inside `n` arrays. -/
def Context.arrays : Nat → Context
  | 0 => hole
  | n + 1 => array (arrays n)

/-- A value inside `n` arrays with nothing beside it. -/
def Value.nested : Nat → Value → Value
  | 0, v => v
  | n + 1, v => array [nested n v]

namespace Schema

theorem depth_arrays (n : Nat) : (Context.arrays n).depth = n := by
  induction n with
  | zero => rfl
  | succ n ih => exact congrArg Nat.succ ih

theorem not_readsDefault_arrays (n : Nat) : ¬ (Context.arrays n).ReadsDefault := by
  induction n with
  | zero => exact id
  | succ n ih => exact ih

theorem height_arrays (n : Nat) (s : Schema) : ((Context.arrays n).fill s).height = s.height + n := by
  induction n with
  | zero => rfl
  | succ n ih => exact congrArg Nat.succ ih

theorem customFree_arrays (n : Nat) {s : Schema} (h : s.CustomFree) :
    CustomFree ((Context.arrays n).fill s) := by
  induction n with
  | zero => exact h
  | succ n ih => exact ⟨trivial, ih⟩

/-- Nested arrays are accepted if all of them may be entered and what is innermost is accepted. -/
theorem isOk_arrays (n : Nat) (s : Schema) (pos : Position) (v : Value) (next : Nat) :
    ((((Context.arrays n).fill s).check pos (v.nested n)).start next).result.outcome.isOk = true ↔
      (∀ k < n, (pos.down k).exceeded = false) ∧
        ((s.check (pos.down n) v).start next).result.outcome.isOk = true := by
  induction n generalizing pos with
  | zero =>
      refine ⟨fun h => ⟨fun k hk => absurd hk (Nat.not_lt_zero k), h⟩, fun h => h.2⟩
  | succ n ih =>
      have hcheck : ((Context.arrays (n + 1)).fill s).check pos (v.nested (n + 1)) =
          elements ((Context.arrays n).fill s).check pos (.array [v.nested n]) := rfl
      by_cases hpos : pos.exceeded = true
      · -- The outermost array is refused.
        rw [hcheck, elements, if_pos hpos]
        refine ⟨fun h => absurd h Bool.false_ne_true, fun h => ?_⟩
        have hroot : pos.exceeded = false := h.1 0 (Nat.succ_pos n)
        rw [hroot] at hpos
        exact absurd hpos Bool.false_ne_true
      · -- The only element decides.
        have hitem : ((elements ((Context.arrays n).fill s).check pos (.array [v.nested n])).start
            next).result.outcome.isOk =
            ((((Context.arrays n).fill s).check pos.descend (v.nested n)).start next).result.outcome.isOk := by
          rw [elements, if_neg hpos]
          simp [Outcome.collection, Outcome.isOk, Outcome.allOk]
        rw [hcheck, hitem, ih pos.descend]
        constructor
        · rintro ⟨hdown, hok⟩
          exact ⟨Position.entered_succ (Bool.eq_false_iff.mpr hpos) hdown, hok⟩
        · rintro ⟨hdown, hok⟩
          exact ⟨fun k hk => hdown (k + 1) (Nat.succ_lt_succ hk), hok⟩

/-! ## Where the limit carries through -/

variable (limits : Limits) (depth k : Nat)

/-- The levels that a walk from the root may enter. -/
theorem exceeded_root_iff :
    ((Position.root limits).down k).exceeded = false ↔ min k depthCeiling ≤ limits.maxDepth := by
  rw [Position.exceeded_down_eq_false_iff k (Nat.zero_le _), Position.root, Nat.zero_add]

theorem down_root_depth : ((Position.root limits).down depth).depth = min depth depthCeiling := by
  rw [Position.down_depth depth (Nat.zero_le _), Position.root, Nat.zero_add]

/-- The levels that it may enter below depth `depth`. -/
theorem exceeded_below_iff :
    (((Position.root limits).down depth).down k).exceeded = false ↔
      min (min depth depthCeiling + k) depthCeiling ≤ limits.maxDepth := by
  have hle : ((Position.root limits).down depth).depth ≤ depthCeiling := by
    rw [down_root_depth]
    exact Nat.min_le_right _ _
  rw [Position.exceeded_down_eq_false_iff k hle, down_root_depth, Position.down_limits]
  rfl

/-- The limits left at depth `depth`. -/
theorem remaining_down_root :
    ((Position.root limits).down depth).remaining.maxDepth = limits.maxDepth - min depth depthCeiling := by
  rw [Position.remaining_maxDepth, down_root_depth, Position.down_limits]
  rfl

variable {limits : Limits} {depth : Nat}

/-- With the limits left at depth `depth`, a walk that starts anew meets the same levels as the walk that goes
    on, unless it starts just past the last level, or without a limit and close to the ceiling. -/
theorem sameLevels_remaining {height : Nat}
    (h : height = 0 ∨ depth = 0 ∨
      if limits.maxDepth < depthCeiling then depth ≠ limits.maxDepth + 1
      else min depth depthCeiling + height ≤ depthCeiling + 1)
    (hentered : ∀ k < depth, ((Position.root limits).down k).exceeded = false) :
    let pos := (Position.root limits).down depth
    ∀ k < height, ((Position.root pos.remaining).down k).exceeded = (pos.down k).exceeded := by
  intro pos k hk
  have hmax := limits.maxDepth_le
  -- The level above `pos` could be entered.
  have hlast : depth = 0 ∨ min (depth - 1) depthCeiling ≤ limits.maxDepth := by
    rcases Nat.eq_zero_or_pos depth with hz | hp
    · exact .inl hz
    · exact .inr ((exceeded_root_iff limits (depth - 1)).mp (hentered (depth - 1) (Nat.sub_one_lt_of_lt hp)))
  rw [Bool.eq_iff_iff, ← not_iff_not, Bool.not_eq_true, Bool.not_eq_true, exceeded_root_iff,
    exceeded_below_iff, remaining_down_root]
  by_cases hlt : limits.maxDepth < depthCeiling
  · rw [if_pos hlt] at h
    omega
  · rw [if_neg hlt] at h
    omega

/-- A tower of arrays that is judged alike with and without the custom check shows that both walks enter as
    many levels. -/
theorem levels_of_sameOk {height : Nat}
    (h : let s := (Context.arrays height).fill any
      let v := (Value.null.nested height).nested depth
      ((((Context.arrays depth).fill s.restarted).validate limits v).start 0).result.outcome.isOk =
        ((((Context.arrays depth).fill s).validate limits v).start 0).result.outcome.isOk)
    (hentered : ∀ k < depth, min k depthCeiling ≤ limits.maxDepth) :
    (∀ k < height, min k depthCeiling ≤ limits.maxDepth - min depth depthCeiling) ↔
      ∀ k < height, min (min depth depthCeiling + k) depthCeiling ≤ limits.maxDepth := by
  have hany : ∀ (pos : Position) (v : Value) (next : Nat),
      ((any.check pos v).start next).result.outcome.isOk = true := fun _ _ _ => rfl
  rw [Bool.eq_iff_iff, validate, validate, isOk_arrays, isOk_arrays, check_restarted, isOk_arrays, isOk_arrays]
    at h
  simp only [hany, and_true, exceeded_root_iff, exceeded_below_iff, remaining_down_root] at h
  exact (and_congr_right_iff.mp h) hentered

/-- **Where the depth limit carries through a custom check.** Say a hole lies inside `depth` containers, and the
    schema for it reaches down `height` containers. Filling the hole with the custom check that validates with
    the schema, or with the schema itself, gives the same verdict on every document, in every context and for
    every such schema, if and only if the hole is not just past the last level that may be entered, nor, where
    all levels may be entered, so deep that the schema reaches below the ceiling. -/
theorem fill_restarted_iff (limits : Limits) (depth height : Nat) :
    (∀ (c : Context) (s : Schema), c.depth = depth → s.height ≤ height → s.CustomFree →
      (c.ReadsDefault → s.default? = none) → ∀ v next,
        let through := (((c.fill s.restarted).validate limits v).start next).result
        let direct := (((c.fill s).validate limits v).start next).result
        through.outcome.isOk = direct.outcome.isOk ∧ through.value = direct.value) ↔
      height = 0 ∨ depth = 0 ∨
        if limits.maxDepth < depthCeiling then depth ≠ limits.maxDepth + 1
        else min depth depthCeiling + height ≤ depthCeiling + 1 := by
  constructor
  · intro h
    have hlevels : ∀ m ≤ height, (∀ k < depth, min k depthCeiling ≤ limits.maxDepth) →
        ((∀ k < m, min k depthCeiling ≤ limits.maxDepth - min depth depthCeiling) ↔
          ∀ k < m, min (min depth depthCeiling + k) depthCeiling ≤ limits.maxDepth) := by
      intro m hm
      have hheight : ((Context.arrays m).fill any).height ≤ height := by
        rw [height_arrays]
        exact (Nat.zero_add m).symm ▸ hm
      exact levels_of_sameOk (h (.arrays depth) _ (depth_arrays depth) hheight (customFree_arrays m trivial)
        (fun hr => absurd hr (not_readsDefault_arrays depth)) _ 0).1
    by_contra hbad
    obtain ⟨hheight, hdepth, hbad⟩ : height ≠ 0 ∧ depth ≠ 0 ∧ ¬ _ := by
      rwa [not_or, not_or] at hbad
    have hmax := limits.maxDepth_le
    by_cases hlt : limits.maxDepth < depthCeiling
    · -- One array just past the last level: only the walk that starts anew enters it.
      rw [if_pos hlt, not_not] at hbad
      have hone := hlevels 1 (Nat.pos_of_ne_zero hheight) fun k hk => by omega
      have hdown := hone.mp (fun k hk => by omega) 0 Nat.one_pos
      omega
    · -- A tower that reaches below the ceiling: only the walk that goes on enters all of it.
      rw [if_neg hlt] at hbad
      have hall := hlevels height (Nat.le_refl _) fun k hk => by omega
      have hlast := hall.mpr (fun k hk => by omega) (height - 1) (by omega)
      have hceiling : 0 < depthCeiling := by decide
      omega
  · intro h c s hdepth hheight hc hdefault v next
    subst hdepth
    have halike : AlikeAt (.root limits) (.root limits) (c.fill s.restarted) (c.fill s) := by
      refine alikeAt_fill (fun hr => (hdefault hr).symm) fun hentered => alikeAt_restarted hc fun k hk => ?_
      exact sameLevels_remaining h hentered k (Nat.lt_of_lt_of_le hk hheight)
    exact Checked.verdict_eq_iff.mp (halike v next).1

/-- With no level below the root to enter, an array of arrays is refused, but passes where the inner array is
    left to a custom check. -/
theorem fill_restarted_past_last_level :
    let c := Context.array .hole
    let s := array int
    let v := Value.array [.array []]
    let limits : Limits := ⟨0, by decide⟩
    (((c.fill s.restarted).validate limits v).start 0).result.outcome.isOk = true ∧
      (((c.fill s).validate limits v).start 0).result.outcome.isOk = false := by
  decide

end Schema

end ConfigSchema
