import ConfigSchema.Proofs.Merging

/-!
# `Schema.SharedPath` — a merge, level by level

Two schemas are merged at their roots, and again under every key that both declare with schemas that can be
merged, and so on down. `SharedPath a b path a' b'` says that a path of such keys leads from `a` to `a'` and from
`b` to `b'`. On every level that is merged, the declared keys of the second side are laid over those of the first
(`Overlay`), and the whole merge is described by that (`merge_overlay`).
-/

namespace ConfigSchema

namespace Schema

/-! ## Places in a schema -/

/-- The schema that is declared under a path of keys. -/
def at? : Schema → List String → Option Schema
  | s, [] => some s
  | s, key :: path => (s.closedKeys?.bind fun keys => keys.fields.lookup key).bind fun field => field.at? path

/-- **Shared paths.** `path` is declared on both sides, and all schemas above its end can be merged. It leads from
    `a` to `a'`, and from `b` to `b'`. -/
inductive SharedPath : Schema → Schema → List String → Schema → Schema → Prop
  | root (a b : Schema) : SharedPath a b [] a b
  | key {a b first second a' b' : Schema} {left right : ClosedKeys} {key : String} {path : List String}
      (ha : a.mergeable? = some left) (hb : b.mergeable? = some right)
      (hfirst : left.fields.lookup key = some first) (hsecond : right.fields.lookup key = some second)
      (h : SharedPath first second path a' b') : SharedPath a b (key :: path) a' b'

variable {options : MergeOptions} {a b a' b' m : Schema} {path : List String}

/-- What can be merged at the end of a path can be merged at its start. -/
theorem SharedPath.mergeable_start (h : SharedPath a b path a' b') (ha : a'.mergeable?.isSome)
    (hb : b'.mergeable?.isSome) : a.mergeable?.isSome ∧ b.mergeable?.isSome := by
  cases h with
  | root => exact ⟨ha, hb⟩
  | key hleft hright => exact ⟨Option.isSome_of_eq_some hleft, Option.isSome_of_eq_some hright⟩

/-! ## One level -/

/-- **`right` laid over `left`.** -/
structure Overlay (options : MergeOptions) (left right merged : Fields Schema) : Prop where
  /-- The keys of the first side in their order, and then the new ones of the second in theirs. -/
  keys : merged.keys = left.keys ++ right.keys.filter (· ∉ left.keys)
  /-- A key of the second side alone keeps its schema, and its default. -/
  second_only : ∀ key second, left.lookup key = none → right.lookup key = some second →
    merged.lookup key = some second
  /-- A key of the first side alone keeps its schema, and its default unless this is to be dropped. -/
  first_only : ∀ key first, left.lookup key = some first → right.lookup key = none →
    merged.lookup key = some (if options.ignoreFirstDefaults then first.withoutDefault else first)
  /-- A key of both has the rule of the merge of the two, if they can be merged, and else that of the second. Its
      default is the second one's, or else the first one's, whatever the options say. -/
  shared : ∀ key first second, left.lookup key = some first → right.lookup key = some second →
    ∃ s, merged.lookup key = some s ∧ s.default? = second.default?.or first.default? ∧
      (first.mergeable?.isSome ∧ second.mergeable?.isSome →
        ∃ m, merge options first second = .ok m ∧ s.rule = m.rule) ∧
      (¬ (first.mergeable?.isSome ∧ second.mergeable?.isSome) → s.rule = second.rule)

variable {left right merged : Fields Schema}

/-- A key that both sides declare is settled. -/
theorem Merges.lookup_shared (h : Merges options left right merged) {key : String} {first second : Schema}
    (hfirst : left.lookup key = some first) (hsecond : right.lookup key = some second) :
    ∃ s, merged.lookup key = some s ∧ settleShared options key first second = .ok s := by
  have hentry := h.entry key
  rw [hfirst, hsecond] at hentry
  have hsettle : (settleShared options key first second).map some = .ok (merged.lookup key) := hentry
  cases hs : settleShared options key first second with
  | error e =>
      rw [hs] at hsettle
      exact absurd hsettle (by simp [Except.map])
  | ok s =>
      rw [hs] at hsettle
      exact ⟨s, (Except.ok.inj hsettle).symm, rfl⟩

theorem Merges.overlay (h : Merges options left right merged) : Overlay options left right merged where
  keys := h.keys
  second_only key second hleft hright := by
    have hentry := h.entry key
    rw [hleft, hright] at hentry
    exact (Except.ok.inj hentry).symm
  first_only key first hleft hright := by
    have hentry := h.entry key
    rw [hleft, hright] at hentry
    exact (Except.ok.inj hentry).symm
  shared key first second hleft hright := by
    obtain ⟨s, hs, hsettle⟩ := h.lookup_shared hleft hright
    obtain ⟨hdefault, hrule⟩ := settleShared_eq_ok_iff.mp hsettle
    refine ⟨s, hs, hdefault, fun hboth => ?_, fun hnot => ?_⟩
    · rwa [if_pos hboth] at hrule
    · rw [if_neg hnot] at hrule
      exact hrule.2

/-! ## All levels -/

/-- A merge has something at every shared path, and where schemas that can be merged meet, their merge. -/
theorem SharedPath.exists_at (hpath : SharedPath a b path a' b') (ha : a'.mergeable?.isSome)
    (hb : b'.mergeable?.isSome) {s : Schema} (h : merge options a b = .ok m) (hs : s.rule = m.rule) :
    ∃ s' m', s.at? path = some s' ∧ merge options a' b' = .ok m' ∧ s'.rule = m'.rule := by
  induction hpath generalizing s m with
  | root => exact ⟨s, m, rfl, h, hs⟩
  | @key a b first second a' b' left right key path hleft hright hfirst hsecond hbelow ih =>
      obtain ⟨left', right', merged, hleft', hright', hmerges, rfl⟩ := merges_of_merge h
      obtain rfl := Option.some.inj (hleft.symm.trans hleft')
      obtain rfl := Option.some.inj (hright.symm.trans hright')
      -- Under `key` stands the merge of the two schemas there, and the rest of the path lies in it.
      obtain ⟨t, ht, -, hmerged, -⟩ := hmerges.overlay.shared key first second hfirst hsecond
      obtain ⟨n, hn, hrule⟩ := hmerged (hbelow.mergeable_start ha hb)
      have hkeys : s.closedKeys? = some ⟨merged, true⟩ := by
        rw [closedKeys?_eq, hs]
        rfl
      obtain ⟨s', m', hat, hm', hs'⟩ := ih ha hb hn hrule
      refine ⟨s', m', ?_, hm', hs'⟩
      rw [at?, hkeys, Option.bind_some, ht, Option.bind_some, hat]

/-- **A merge, level by level.** Wherever schemas that can be merged meet under one path of shared keys, the merge has
    an object, in which the keys of the second side are laid over those of the first. -/
theorem merge_overlay (h : merge options a b = .ok m) (hpath : SharedPath a b path a' b') {left right : ClosedKeys}
    (ha : a'.mergeable? = some left) (hb : b'.mergeable? = some right) :
    ∃ m' merged, m.at? path = some m' ∧ m'.rule = .object merged true ∧
      Overlay options left.fields right.fields merged := by
  obtain ⟨m', n, hat, hn, hrule⟩ :=
    hpath.exists_at (Option.isSome_of_eq_some ha) (Option.isSome_of_eq_some hb) h rfl
  obtain ⟨left', right', merged, hleft, hright, hmerges, rfl⟩ := merges_of_merge hn
  obtain rfl := Option.some.inj (ha.symm.trans hleft)
  obtain rfl := Option.some.inj (hb.symm.trans hright)
  exact ⟨m', merged, hat, hrule, hmerges.overlay⟩

/-- Two levels down, with the defaults of the first side alone dropped: `port` loses its default, `host` takes the first
    one over, `tls` is new, and `server` itself gets back the default that the first side gave it. -/
theorem merge_overlay_server :
    let left := [("port", int.withDefault .null), ("host", string.withDefault (.string "h"))]
    let right := [("host", compose string (oneOf [.string "h"])), ("tls", bool.withDefault (.bool true))]
    let first := (objectWith false left).withDefault (.object [])
    let second := object right
    let a := object [("app", object [("server", first), ("mode", string)])]
    let b := object [("app", object [("mode", string.withDefault (.string "fast")), ("server", second)])]
    let server := object [("port", int), ("host", (compose string (oneOf [.string "h"])).withDefault (.string "h")),
      ("tls", bool.withDefault (.bool true))]
    let m := object [("app", object [("server", server.withDefault (.object [])),
      ("mode", string.withDefault (.string "fast"))])]
    merge ⟨true⟩ a b = .ok m ∧ SharedPath a b ["app", "server"] first second ∧
      first.mergeable? = some ⟨left, false⟩ ∧ second.mergeable? = some ⟨right, true⟩ ∧
      ∃ m' merged, m.at? ["app", "server"] = some m' ∧ m'.rule = .object merged true ∧
        Overlay ⟨true⟩ left right merged := by
  intro left right first second a b server m
  have hm : merge ⟨true⟩ a b = .ok m := rfl
  have hpath : SharedPath a b ["app", "server"] first second :=
    .key rfl rfl rfl rfl (.key rfl rfl rfl rfl (.root first second))
  have hfirst : first.mergeable? = some ⟨left, false⟩ := rfl
  have hsecond : second.mergeable? = some ⟨right, true⟩ := rfl
  exact ⟨hm, hpath, hfirst, hsecond, merge_overlay hm hpath hfirst hsecond⟩

end Schema

end ConfigSchema
