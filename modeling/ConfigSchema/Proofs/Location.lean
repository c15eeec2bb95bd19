import Mathlib.Data.List.Nodup
import ConfigSchema.Proofs.Erasure

/-!
# `Outcome.LocatedIn` — where the nodes of an outcome are

A node of an outcome is reached from the root by segments (`Outcome.Reaches`), and so is a part of a value
(`Value.at?`). `LocatedIn v outcome` says that the two go together: the segments that lead to a node lead to a
part of `v`, and what the node says is true of that part (`Outcome.Describes`). A refusal shows it, and a
container lists its items, each once and in order.

A validation changes the value while it builds the outcome, and the outcomes of choices, compositions and
deprecations stand in the tree without a segment of their own. Still, with choices that inject nothing, every
node is located in the value *as it was before* (`validate_locatedIn`). What an alternative or a first part
leaves is that value, and what is injected has no node.

One lemma for each checker says that its outcome is located in the value given to it (`Locates`).
-/

namespace ConfigSchema

open Checker

/-! ## Places in a value -/

namespace Value

/-- The item of a container under a segment. -/
def item? : Value → Segment → Option Value
  | array items, .index i => items[i]?
  | object fields, .key key => fields.lookup key
  | _, _ => none

/-- The part of a value to which the segments lead. -/
def at? : Value → List Segment → Option Value
  | v, [] => some v
  | v, segment :: path => (v.item? segment).bind fun item => item.at? path

theorem at?_append (v : Value) (outer inner : List Segment) :
    v.at? (outer ++ inner) = (v.at? outer).bind fun part => part.at? inner := by
  induction outer generalizing v with
  | nil => rfl
  | cons segment rest ih =>
      rw [List.cons_append, at?, at?, Option.bind_assoc]
      exact Option.bind_congr fun item _ => ih item

/-- The segments of the items of a container, in order. -/
def segments : Value → List Segment
  | array items => (List.range items.length).map .index
  | object fields => (Fields.keys fields).map .key
  | _ => []

/-- No two items of a container stand under one segment. -/
theorem Distinct.nodup_segments {v : Value} (h : v.Distinct) : v.segments.Nodup := by
  cases v with
  | array items =>
      exact List.Nodup.map (fun _ _ hij => Segment.index.inj hij) List.nodup_range
  | object fields =>
      exact List.Nodup.map (fun _ _ hkl => Segment.key.inj hkl) h.1
  | _ => exact List.nodup_nil

end Value

/-! ## Nodes of an outcome -/

namespace Outcome

/-- **`path` leads to `node`** from the root of the outcome. -/
inductive Reaches : Outcome → List Segment → Outcome → Prop
  | root (outcome : Outcome) : Reaches outcome [] outcome
  | item {outcome item node : Outcome} {segment : Segment} {path : List Segment}
      (hitem : (segment, item) ∈ outcome.entries) (h : Reaches item path node) :
      Reaches outcome (segment :: path) node

/-- What the root of the outcome says is true of `part`. A refusal shows it; the kind that is named beside it is that of
    what is shown. A collection is about a container and lists the segments of the items, each once and in order, so
    that each item is found. -/
def Describes : Outcome → Value → Prop
  | passed _, _ => True
  | failed _ actual _, part => actual = part
  | items entries warning, part =>
      (part.kind = .array ∨ part.kind = .object) ∧ entries.map Prod.fst = part.segments ∧
        (entries.map Prod.fst).Nodup ∧ ∀ e ∈ entries, (items entries warning).item? e.1 = some e.2

/-- **Every node is located in `v`**: what leads to it leads to a part of `v`, which it describes. -/
def LocatedIn (v : Value) (outcome : Outcome) : Prop :=
  ∀ path node, outcome.Reaches path node → ∃ part, v.at? path = some part ∧ node.Describes part

variable {v : Value} {outcome : Outcome}

/-- A leaf has no node but itself. -/
theorem locatedIn_of_leaf (hleaf : outcome.entries = []) (h : outcome.Describes v) : outcome.LocatedIn v := by
  intro path node hreach
  cases hreach with
  | root => exact ⟨v, rfl, h⟩
  | item hitem _ => exact absurd (hleaf ▸ hitem) List.not_mem_nil

/-- A warning moves no node. -/
theorem LocatedIn.setWarning (warning : Option String) (h : outcome.LocatedIn v) :
    (outcome.setWarning warning).LocatedIn v := by
  intro path node hreach
  cases hreach with
  | root =>
      obtain ⟨part, hpart, hdescribes⟩ := h [] outcome (.root outcome)
      refine ⟨part, hpart, ?_⟩
      cases outcome with
      | passed w => trivial
      | failed expected actual w => exact hdescribes
      | items entries w => exact hdescribes
  | item hitem hreach =>
      refine h _ node (.item ?_ hreach)
      cases outcome with
      | items entries w => exact hitem
      | _ => exact absurd hitem List.not_mem_nil

/-- A container is located if its entries are, item by item. -/
theorem locatedIn_collection {entries : List (Segment × Outcome)} (hkind : v.kind = .array ∨ v.kind = .object)
    (hdistinct : v.Distinct) (hsegments : entries.map Prod.fst = v.segments)
    (h : ∀ e ∈ entries, ∃ item, v.item? e.1 = some item ∧ e.2.LocatedIn item) :
    (collection entries).LocatedIn v := by
  have hnodup : (entries.map Prod.fst).Nodup := hsegments ▸ hdistinct.nodup_segments
  intro path node hreach
  cases hreach with
  | root => exact ⟨v, rfl, hkind, hsegments, hnodup, fun e he => Fields.lookup_eq_of_mem hnodup he⟩
  | item hitem hreach =>
      obtain ⟨item, hat, hlocated⟩ := h _ hitem
      obtain ⟨part, hpart, hdescribes⟩ := hlocated _ node hreach
      refine ⟨part, ?_, hdescribes⟩
      rw [Value.at?, hat]
      exact hpart

end Outcome

/-! ## Checkers -/

/-- Every outcome of the run is located in `v`. -/
def Locates (v : Value) (r : Run Checked) : Prop := r.Ensures 0 fun c => c.outcome.LocatedIn v

namespace Checker

variable {pos : Position} {v : Value} {check first second element : Checker}

theorem accept_locates (pos : Position) : Locates v (accept pos v) := Run.Ensures.pure (Outcome.locatedIn_of_leaf rfl trivial)

/-- A refusal shows the value that it refuses. -/
theorem reject_locates (pos : Position) (expected : String) : Locates v (reject expected pos v) :=
  Run.Ensures.pure (Outcome.locatedIn_of_leaf rfl rfl)

theorem test_locates (pos : Position) (test : Prop) [Decidable test] (expected : String) :
    Locates v (if test then accept pos v else reject expected pos v) := by
  split
  · exact accept_locates pos
  · exact reject_locates pos expected

theorem advising_locates (warning : String) (h : Locates v (check pos v)) :
    Locates v (advising warning check pos v) :=
  Run.Ensures.bind h fun _ hc => Run.Ensures.pure (hc.setWarning _)

/-- The second check is asked about the value that was given to the first. -/
theorem andThen_locates (hfirst : Locates v (first pos v)) (hleaves : Leaves v (first pos v))
    (hsecond : Locates v (second pos v)) : Locates v (andThen first second pos v) := by
  refine Run.Ensures.bind (hfirst.and hleaves) fun c hc => ?_
  split
  · rw [hc.2]
    exact hsecond
  · exact Run.Ensures.pure hc.1

/-- The last refusal shows the value that was given to the first alternative. -/
theorem firstOf_locates (expected : String) {checks : List Checker}
    (h : ∀ check ∈ checks, Locates v (check pos v) ∧ Leaves v (check pos v)) :
    Locates v (firstOf expected checks pos v) := by
  induction checks with
  | nil => exact reject_locates pos expected
  | cons check rest ih =>
      obtain ⟨hlocates, hleaves⟩ := h check List.mem_cons_self
      refine Run.Ensures.bind (hlocates.and hleaves) fun c hc => ?_
      split
      · exact Run.Ensures.pure hc.1
      · rw [hc.2]
        exact ih fun check' hcheck' => h check' (List.mem_cons_of_mem check hcheck')

theorem tooDeep_locates : Locates v (tooDeep pos v) :=
  Run.Ensures.bind (Run.Ensures.log _) fun _ _ => reject_locates pos _

/-- The elements of an array are listed by their indices. -/
theorem elements_locates (hv : v.Distinct)
    (h : ∀ x, x.Distinct → Locates x (element pos.descend x)) : Locates v (elements element pos v) := by
  cases v with
  | array items =>
      rw [elements]
      split
      · exact tooDeep_locates
      · have hitems : ∀ x ∈ items, x.Distinct := Value.distinctItems_iff.mp hv
        refine Run.Ensures.bind (Run.Ensures.mapM fun x hx => h x (hitems x hx)) fun results hresults => ?_
        refine Run.Ensures.pure (Outcome.locatedIn_collection (.inl rfl) hv ?_ fun e he => ?_)
        · rw [Value.segments, hresults.length_eq]
          exact List.ext_getElem (by simp) fun i _ _ => by simp
        · obtain ⟨i, hi, rfl⟩ := List.mem_mapIdx.mp he
          have hi' : i < items.length := hresults.length_eq ▸ hi
          exact ⟨items[i], List.getElem?_eq_getElem hi', hresults.get hi' hi⟩
  | _ => exact reject_locates pos _

/-- The entries of an object are listed by their keys; what is injected behind them has no node. -/
theorem entries_locates {checkOf : String → Checker} (slots : List Slot) (hv : v.Distinct)
    (h : ∀ key x, x.Distinct → Locates x (checkOf key pos.descend x)) :
    Locates v (entries checkOf slots pos v) := by
  cases v with
  | object fields =>
      rw [entries]
      split
      · exact tooDeep_locates
      · have hfields : ∀ e ∈ fields, e.2.Distinct := Value.distinctFields_iff.mp hv.2
        have hentry : ∀ e ∈ fields, Run.Ensures 0 (fun r => r.1 = e.1 ∧ r.2.outcome.LocatedIn e.2)
            (Prod.mk e.1 <$> checkOf e.1 pos.descend e.2) :=
          fun e he => Run.Ensures.map ((h e.1 e.2 (hfields e he)).mono fun _ hc => ⟨rfl, hc⟩)
        refine Run.Ensures.bind (Run.Ensures.mapM hentry) fun results hresults => ?_
        have hlocated : (Outcome.collection (results.map fun r => (.key r.1, r.2.outcome))).LocatedIn
            (.object fields) := by
          refine Outcome.locatedIn_collection (.inr rfl) hv ?_ fun e he => ?_
          · have hkeys : results.map Prod.fst = fields.map Prod.fst :=
              forall₂_map_eq (hresults.imp fun _ _ hr => hr.1)
            rw [Value.segments, Fields.keys, ← hkeys, List.map_map, List.map_map]
            rfl
          · obtain ⟨r, hr, rfl⟩ := List.mem_map.mp he
            obtain ⟨e, he, hkey, hlocated⟩ := exists_of_forall₂_right hresults hr
            exact ⟨e.2, Fields.lookup_of_mem hv.1 (hkey ▸ he), hlocated⟩
        -- Whatever the injections add, the outcome is settled.
        exact fun next _ => ⟨hlocated, Nat.zero_le _⟩
  | _ => exact reject_locates pos _

end Checker

/-! ## Validations -/

namespace Schema

/-- **Every outcome of a schema is located in the value**, at every position. -/
theorem check_locates {s : Schema} (hc : s.CustomFree) (hp : s.PlainChoices) (pos : Position) {v : Value}
    (hv : v.Distinct) : Locates v (s.check pos v) := by
  induction s using Schema.induction generalizing pos v with
  | step s ih =>
    obtain ⟨default?, rule⟩ := s
    have ihp : ∀ t ∈ rule.parts, ∀ pos v, v.Distinct → Locates v (t.check pos v) :=
      fun t ht pos v hv => ih t ht (hc.part ht) (hp.part ht) pos hv
    have hkeyed : ∀ slots, rule.IsKeyed → Locates v (entries rule.keyCheck slots pos v) := by
      intro slots hrule
      refine entries_locates slots hv fun key x hx => ?_
      exact Rule.keyCheck_cases (P := fun check => Locates x (check pos.descend x)) hrule key (accept_locates _)
        (fun t ht => ihp t ht pos.descend x hx) fun warning check => advising_locates warning
    rw [check_eq]
    cases rule with
    | any => exact accept_locates pos
    | kind k => exact test_locates pos _ _
    | int => exact test_locates pos _ _
    | oneOf literals => exact test_locates pos _ _
    | compose first second =>
        have hfirst : first ∈ [first, second] := List.mem_cons_self
        have hsecond : second ∈ [first, second] := List.mem_cons_of_mem _ List.mem_cons_self
        have hfree : first.InjectionFree := hp.here
        exact andThen_locates (ihp first hfirst pos v hv) (hfree.leaves (hc.part hfirst) pos v)
          (ihp second hsecond pos v hv)
    | either alternatives =>
        have hfree : ∀ t ∈ alternatives, t.InjectionFree := hp.here
        refine firstOf_locates _ fun check hcheck => ?_
        rw [checks_eq_map] at hcheck
        obtain ⟨t, ht, rfl⟩ := List.mem_map.mp hcheck
        exact ⟨ihp t ht pos v hv, (hfree t ht).leaves (hc.part ht) pos v⟩
    | deprecated inner notice => exact advising_locates notice (ihp inner List.mem_cons_self pos v hv)
    | array element => exact elements_locates hv fun x => ihp element List.mem_cons_self pos.descend x
    | object fields suggest => exact hkeyed _ trivial
    | objects advice specifics element => exact hkeyed _ trivial
    | custom name check => exact absurd hc.here id

/-- **Every reported node is located in the document as it was.** With choices that inject nothing, the segments
    that lead to a node of the outcome lead to a part of the document, which the node describes: a refusal
    shows it, and a collection lists its items. -/
theorem validate_locatedIn {s : Schema} (hc : s.CustomFree) (hp : s.PlainChoices) (limits : Limits) {v : Value}
    (hv : v.Distinct) (next : Nat) : ((s.validate limits v).start next).result.outcome.LocatedIn v :=
  (check_locates hc hp (.root limits) hv next (Nat.zero_le next)).1

/-- A refusal three levels down, behind a deprecation, a choice and a composition, while a port is injected. -/
theorem validate_locatedIn_servers :
    let server := object [("port", int.withDefault (.string "http")), ("host", string)]
    let s := object [("servers", array (compose any (deprecated server none))),
      ("mode", either [int, array string])]
    let server' := Value.object [("host", .null)]
    let v := Value.object [("mode", .bool true), ("servers", .array [server'])]
    let outcome := ((s.validate .strict v).start 0).result.outcome
    s.CustomFree ∧ s.PlainChoices ∧ v.Distinct ∧ outcome.LocatedIn v ∧
      outcome.Reaches [.key "servers", .index 0, .key "host"] (.failed "string" .null none) ∧
      v.at? [.key "servers", .index 0, .key "host"] = some .null := by
  intro server s server' v outcome
  have hc : s.CustomFree := by decide
  have hp : s.PlainChoices := by decide
  have hv : v.Distinct := by simp [v, server', Value.Distinct, Value.DistinctFields, Value.DistinctItems]
  have hreach : outcome.Reaches [.key "servers", .index 0, .key "host"] (.failed "string" .null none) :=
    .item (.tail _ (.head _)) (.item (.head _) (.item (.head _) (.root _)))
  exact ⟨hc, hp, hv, validate_locatedIn hc hp .strict hv 0, hreach, rfl⟩

end Schema

end ConfigSchema
