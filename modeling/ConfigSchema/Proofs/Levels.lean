import ConfigSchema.Proofs.Closure
import ConfigSchema.Proofs.Location

/-!
# `Position.room` — a validation stays on the levels it may enter

From a position in a validation there is room for some levels of containers, the current one included. When there is
no room left a container is refused as it is. So however choices, compositions and deprecations are stacked on the way
down, the outcome has no collection on a level for which there was no room (`Outcome.Shallow`), and what lay in the
value below all those levels is where it was and as it was (`Value.KeptBelow`).

The bound is for depths that are counted. Under `Limits.unlimited` the count stops at its ceiling, and the room is
never used up.
-/

namespace ConfigSchema

open Checker

/-! ## Room -/

namespace Position

variable {pos : Position}

/-- The number of container levels that may be entered, from the current one down. -/
def room (pos : Position) : Nat := pos.limits.maxDepth + 1 - pos.depth

@[simp] theorem room_root (limits : Limits) : (root limits).room = limits.maxDepth + 1 := rfl

/-- Below a container that may be entered there is one level less. -/
theorem room_eq_succ (hcounted : pos.limits.maxDepth < depthCeiling) (h : ¬ pos.exceeded = true) :
    pos.room = pos.descend.room + 1 := by
  have hdepth : pos.depth ≤ pos.limits.maxDepth := exceeded_eq_false_iff.mp (Bool.eq_false_iff.mpr h)
  have hdown : pos.descend.depth = pos.depth + 1 := descend_depth (by omega)
  unfold room
  rw [hdown, descend_limits]
  omega

end Position

/-! ## Shallow outcomes -/

namespace Outcome

variable {n : Nat} {outcome : Outcome}

/-- **There are collections on the first `n` levels only**, the root being on the first one. -/
def Shallow (n : Nat) (outcome : Outcome) : Prop :=
  ∀ path node, outcome.Reaches path node → node.isCollection = true → path.length < n

theorem shallow_passed (warning : Option String) : (passed warning).Shallow n := by
  intro path node hreach hnode
  cases hreach with
  | root => exact absurd hnode Bool.noConfusion
  | item hitem _ => exact absurd hitem List.not_mem_nil

theorem shallow_failed (expected : String) (actual : Value) (warning : Option String) :
    (failed expected actual warning).Shallow n := by
  intro path node hreach hnode
  cases hreach with
  | root => exact absurd hnode Bool.noConfusion
  | item hitem _ => exact absurd hitem List.not_mem_nil

theorem shallow_items {entries : List (Segment × Outcome)} {warning : Option String}
    (h : ∀ e ∈ entries, e.2.Shallow n) : (items entries warning).Shallow (n + 1) := by
  intro path node hreach hnode
  cases hreach with
  | root => exact Nat.succ_pos n
  | item hitem hreach => exact Nat.succ_lt_succ (h _ hitem _ node hreach hnode)

namespace Shallow

theorem item {e : Segment × Outcome} (h : outcome.Shallow (n + 1)) (he : e ∈ outcome.entries) :
    e.2.Shallow n := by
  intro path node hreach hnode
  exact Nat.lt_of_succ_lt_succ (h _ node (.item he hreach) hnode)

theorem setWarning (warning : Option String) (h : outcome.Shallow n) : (outcome.setWarning warning).Shallow n := by
  cases outcome with
  | passed w => exact shallow_passed warning
  | failed expected actual w => exact shallow_failed expected actual warning
  | items entries w =>
      cases n with
      | zero => exact absurd (h [] _ (.root _) rfl) (Nat.not_lt_zero 0)
      | succ n => exact shallow_items fun e he => h.item he

/-- Every other node is an item of a collection. -/
theorem length_le (h : outcome.Shallow n) {path : List Segment} {node : Outcome} (hreach : outcome.Reaches path node) :
    path.length ≤ n := by
  induction hreach generalizing n with
  | root outcome => exact Nat.zero_le n
  | @item outcome item node segment path hitem _ ih =>
      have hcollection : outcome.isCollection = true := by
        cases outcome with
        | items entries warning => rfl
        | _ => exact absurd hitem List.not_mem_nil
      have hroot := h [] outcome (.root outcome) hcollection
      cases n with
      | zero => exact absurd hroot (Nat.not_lt_zero _)
      | succ n => exact Nat.succ_le_succ (ih (h.item hitem))

end Shallow

end Outcome

/-! ## Values kept below some levels -/

namespace Value

variable {n : Nat} {u v w : Value}

/-- **What lies below the first `n` levels of `v` is in `w`**, at the same places. -/
def KeptBelow (n : Nat) (v w : Value) : Prop :=
  ∀ path part, n ≤ path.length → v.at? path = some part → w.at? path = some part

theorem KeptBelow.refl (n : Nat) (v : Value) : KeptBelow n v v := fun _ _ _ h => h

theorem KeptBelow.trans (h : KeptBelow n u v) (h' : KeptBelow n v w) : KeptBelow n u w :=
  fun path part hn hat => h' path part hn (h path part hn hat)

/-- A container is kept below one level more than its items are. -/
theorem keptBelow_of_items (h : ∀ segment x, v.item? segment = some x →
    ∃ x', w.item? segment = some x' ∧ KeptBelow n x x') : KeptBelow (n + 1) v w := by
  intro path part hn hat
  cases path with
  | nil => exact absurd hn (Nat.not_succ_le_zero n)
  | cons segment path =>
      obtain ⟨x, hx, hpart⟩ := Option.bind_eq_some_iff.mp hat
      obtain ⟨x', hx', hkept⟩ := h segment x hx
      rw [at?, hx', Option.bind_some]
      exact hkept path part (Nat.le_of_succ_le_succ hn) hpart

theorem keptBelow_array {items items' : List Value} (h : List.Forall₂ (KeptBelow n) items items') :
    KeptBelow (n + 1) (array items) (array items') := by
  refine keptBelow_of_items fun segment x hx => ?_
  cases segment with
  | key name => simp [item?] at hx
  | index i =>
      obtain ⟨hi, rfl⟩ := List.getElem?_eq_some_iff.mp hx
      have hi' : i < items'.length := h.length_eq ▸ hi
      exact ⟨items'[i], List.getElem?_eq_getElem hi', h.get hi hi'⟩

/-- What is added to an object comes behind its entries, and hides none of them. -/
theorem keptBelow_object {fields fields' added : Fields Value}
    (h : List.Forall₂ (fun e e' => e'.1 = e.1 ∧ KeptBelow n e.2 e'.2) fields fields') :
    KeptBelow (n + 1) (object fields) (object (fields' ++ added)) := by
  refine keptBelow_of_items fun segment x hx => ?_
  cases segment with
  | index i => simp [item?] at hx
  | key name =>
      change fields.lookup name = some x at hx
      show ∃ x', (fields' ++ added).lookup name = some x' ∧ KeptBelow n x x'
      induction h with
      | nil => simp at hx
      | @cons e e' rest rest' he _ ih =>
          obtain ⟨k, y⟩ := e
          obtain ⟨k', y'⟩ := e'
          obtain ⟨rfl, hkept⟩ : k' = k ∧ KeptBelow n y y' := he
          rw [List.cons_append, List.lookup_cons]
          rw [List.lookup_cons] at hx
          by_cases hk : name == k'
          · rw [hk] at hx ⊢
            obtain rfl : y = x := Option.some.inj hx
            exact ⟨y', rfl, hkept⟩
          · rw [Bool.eq_false_iff.mpr hk] at hx ⊢
            exact ih hx

end Value

/-! ## Checkers -/

/-- Every answer of the run is shallow, and keeps what lies below the first `n` levels of `v`. -/
def StaysWithin (n : Nat) (v : Value) (r : Run Checked) : Prop :=
  r.Ensures 0 fun c => c.outcome.Shallow n ∧ v.KeptBelow n c.value

namespace Checker

variable {check first second element : Checker}

/-- **Confined checkers** stay on the levels for which there is room. -/
def Confined (check : Checker) : Prop :=
  ∀ pos v, pos.limits.maxDepth < depthCeiling → StaysWithin pos.room v (check pos v)

theorem confined_accept : accept.Confined :=
  fun _ v _ => .pure ⟨Outcome.shallow_passed none, .refl _ v⟩

theorem confined_reject (expected : String) : (reject expected).Confined :=
  fun _ v _ => .pure ⟨Outcome.shallow_failed expected v none, .refl _ v⟩

theorem confined_ofKind (k : Kind) (expected : String) : (ofKind k expected).Confined := by
  intro pos v hcounted
  unfold ofKind
  split
  · exact confined_accept pos v hcounted
  · exact confined_reject expected pos v hcounted

theorem confined_literal (literals : List Value) (expected : String) : (literal literals expected).Confined := by
  intro pos v hcounted
  unfold literal
  split
  · exact confined_accept pos v hcounted
  · exact confined_reject expected pos v hcounted

theorem Confined.advising (warning : String) (h : check.Confined) : (advising warning check).Confined := by
  intro pos v hcounted
  exact Run.Ensures.bind (h pos v hcounted) fun c hc => .pure ⟨hc.1.setWarning _, hc.2⟩

/-- The second check starts from what the first one leaves, on the same level. -/
theorem Confined.andThen (hfirst : first.Confined) (hsecond : second.Confined) :
    (andThen first second).Confined := by
  intro pos v hcounted
  refine Run.Ensures.bind (hfirst pos v hcounted) fun c hc => ?_
  split
  · exact (hsecond pos c.value hcounted).mono fun c' hc' => ⟨hc'.1, hc.2.trans hc'.2⟩
  · exact .pure hc

theorem confined_firstOf (expected : String) {checks : List Checker} (h : ∀ check ∈ checks, check.Confined) :
    (firstOf expected checks).Confined := by
  induction checks with
  | nil => exact confined_reject expected
  | cons check rest ih =>
      intro pos v hcounted
      refine Run.Ensures.bind (h check List.mem_cons_self pos v hcounted) fun c hc => ?_
      split
      · exact .pure hc
      · have hrest := ih fun check' hcheck' => h check' (List.mem_cons_of_mem check hcheck')
        exact (hrest pos c.value hcounted).mono fun c' hc' => ⟨hc'.1, hc.2.trans hc'.2⟩

theorem confined_tooDeep : tooDeep.Confined :=
  fun pos v hcounted => Run.Ensures.bind (Run.Ensures.log _) fun _ _ => confined_reject _ pos v hcounted

theorem Confined.elements (h : element.Confined) : (elements element).Confined := by
  intro pos v hcounted
  cases v with
  | array items =>
      rw [Checker.elements]
      split
      · exact confined_tooDeep pos _ hcounted
      · rename_i hpos
        rw [Position.room_eq_succ hcounted hpos]
        refine Run.Ensures.bind (Run.Ensures.mapM fun x _ => h pos.descend x hcounted) fun results hresults => ?_
        refine .pure ⟨Outcome.shallow_items fun e he => ?_, Value.keptBelow_array ?_⟩
        · obtain ⟨i, hi, rfl⟩ := List.mem_mapIdx.mp he
          obtain ⟨x, -, hx⟩ := exists_of_forall₂_right hresults (List.getElem_mem hi)
          exact hx.1
        · rw [List.forall₂_map_right_iff]
          exact hresults.imp fun _ _ hx => hx.2
  | _ => exact confined_reject _ pos _ hcounted

/-- The injected entries are new, whatever their checks make of them. -/
theorem confined_entries {checkOf : String → Checker} (slots : List Slot) (h : ∀ key, (checkOf key).Confined) :
    (entries checkOf slots).Confined := by
  intro pos v hcounted
  cases v with
  | object fields =>
      rw [entries]
      split
      · exact confined_tooDeep pos _ hcounted
      · rename_i hpos
        rw [Position.room_eq_succ hcounted hpos]
        have hentry : ∀ e ∈ fields, Run.Ensures 0
            (fun r => r.1 = e.1 ∧ r.2.outcome.Shallow pos.descend.room ∧ e.2.KeptBelow pos.descend.room r.2.value)
            (Prod.mk e.1 <$> checkOf e.1 pos.descend e.2) :=
          fun e _ => Run.Ensures.map ((h e.1 pos.descend e.2 hcounted).mono fun _ hc => ⟨rfl, hc⟩)
        refine Run.Ensures.bind (Run.Ensures.mapM hentry) fun results hresults => ?_
        have hadded : Run.Ensures 0 (fun _ => True)
            ((Slot.missing slots fields).mapM fun m => m.1.inject pos.descend m.2) :=
          fun _ _ => ⟨trivial, Nat.zero_le _⟩
        refine Run.Ensures.bind hadded fun added _ => ?_
        refine .pure ⟨Outcome.shallow_items fun e he => ?_, Value.keptBelow_object ?_⟩
        · obtain ⟨r, hr, rfl⟩ := List.mem_map.mp he
          obtain ⟨e, -, -, hshallow, -⟩ := exists_of_forall₂_right hresults hr
          exact hshallow
        · rw [List.forall₂_map_right_iff]
          exact hresults.imp fun _ _ hr => ⟨hr.1, hr.2.2⟩
  | _ => exact confined_reject _ pos _ hcounted

end Checker

/-! ## Validations -/

namespace Schema

theorem confined_check {s : Schema} (hc : s.CustomFree) : s.check.Confined := by
  have hclosed : Checker.Closed Checker.Confined fun _ => True :=
    { accept := confined_accept
      ofKind := confined_ofKind
      andThen := Confined.andThen
      firstOf := confined_firstOf
      advising := fun warning {_} h => h.advising warning
      elements := Confined.elements
      entries := fun {_ slots} hcheck _ _ => confined_entries slots hcheck }
  exact hclosed.check_of_customFree confined_literal hc

/-- **The depth limit bounds a validation.** No collection in the outcome lies more than `maxDepth` segments below the
    root, and so no node more than one segment further down; and every part of the document that lies more than
    `maxDepth` segments below its root is where it was and as it was. -/
theorem validate_within_limit {s : Schema} (hc : s.CustomFree) {limits : Limits}
    (hcounted : limits.maxDepth < depthCeiling) (v : Value) (next : Nat) :
    let c := ((s.validate limits v).start next).result
    (∀ path node, c.outcome.Reaches path node →
      (node.isCollection = true → path.length ≤ limits.maxDepth) ∧ path.length ≤ limits.maxDepth + 1) ∧
    ∀ path part, v.at? path = some part → limits.maxDepth < path.length → c.value.at? path = some part := by
  intro c
  have hstays : StaysWithin (Position.root limits).room v (s.check (.root limits) v) :=
    confined_check hc (.root limits) v hcounted
  obtain ⟨hshallow, hkept⟩ := (hstays next (Nat.zero_le next)).1
  rw [Position.room_root] at hshallow hkept
  constructor
  · intro path node hreach
    exact ⟨fun hnode => Nat.le_of_lt_succ (hshallow path node hreach hnode), hshallow.length_le hreach⟩
  · intro path part hat hdeep
    exact hkept path part hdeep hat

/-- One level below the root may be entered. There a port is injected; `opts` is one level further down, and keeps
    even the key that its schema would have added. -/
theorem validate_within_limit_tls :
    let opts := object [("on", bool.withDefault (.bool true))]
    let tls := object [("opts", opts), ("port", int.withDefault (.string "https"))]
    let s := compose any (object [("tls", deprecated (either [string, compose any tls, any]) none), ("log", tls)])
    let limits : Limits := ⟨1, by decide⟩
    let v := Value.object [("tls", .object [("opts", .object [])]), ("log", .object [("opts", .object [])])]
    let c := ((s.validate limits v).start 0).result
    let completed := Value.object [("opts", .object []), ("port", .string "https")]
    let refused := Outcome.mismatch ("nesting depth of at most " ++ toString 1) (.object [])
    s.CustomFree ∧ limits.maxDepth < depthCeiling ∧ c.value = .object [("tls", completed), ("log", completed)] ∧
      c.outcome.Reaches [.key "log", .key "opts"] refused ∧
      (∀ path node, c.outcome.Reaches path node →
        (node.isCollection = true → path.length ≤ 1) ∧ path.length ≤ 2) ∧
      c.value.at? [.key "tls", .key "opts"] = some (.object []) := by
  intro opts tls s limits v c completed refused
  have hc : s.CustomFree := by decide
  have hcounted : limits.maxDepth < depthCeiling := by decide
  obtain ⟨hbound, hkept⟩ := validate_within_limit hc hcounted v 0
  have hreach : c.outcome.Reaches [.key "log", .key "opts"] refused :=
    .item (.tail _ (.head _)) (.item (.head _) (.root _))
  exact ⟨hc, hcounted, rfl, hreach, hbound, hkept [.key "tls", .key "opts"] (.object []) rfl (by decide)⟩

end Schema

end ConfigSchema
