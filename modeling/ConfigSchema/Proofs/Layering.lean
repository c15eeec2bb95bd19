import ConfigSchema.Proofs.Identity
import ConfigSchema.Proofs.Merging

/-!
# Layering — what a merged schema accepts

Schemas are merged so that one may extend or overlay another. This module relates the merge, which is about
schemas, to the verdicts on values.

* A merge of plain objects lies between its sides: it accepts what both accept, and nothing that the second
  refuses (`isOk_merge_between`).
* To validate with the merge of schemas that share no key is to validate with the one and then with the other
  (`validate_merge_disjoint`).

Both hold of every schema under the declared keys, custom checks included, if these are impartial to fresh
identities. What an object rule decides is first put in terms of the verdicts on the entries
(`Impartial.gives_judgesAll`).
-/

namespace ConfigSchema

open Checker

/-! ## Objects, entry by entry -/

namespace Schema

/-- What the schema leaves of a copy of its default, if it has one. -/
def injected (s : Schema) (base : Nat) (pos : Position) : Value :=
  match s.default? with
  | some d => s.filled base pos d
  | none => .undefined

/-- The own default of a schema plays no part in its verdict. -/
theorem verdict_congr {s t : Schema} (h : s.rule = t.rule) (base : Nat) (pos : Position) (v : Value) :
    s.verdict base pos v = t.verdict base pos v := by
  rw [verdict, verdict, check_eq, check_eq, h]

/-- What a schema gives holds of its verdict. -/
theorem Gives.verdict {s : Schema} {base : Nat} {pos : Position} {v : Value} {post : Verdict → Prop}
    (h : s.Gives base pos v post) : post (s.verdict base pos v) :=
  (h base (Nat.le_refl base)).1

end Schema

namespace Rule

/-- The verdict on an entry: that of its governor, if it has one. -/
def judgement (rule : Rule) (base : Nat) (pos : Position) (e : String × Value) : Verdict :=
  match rule.governor? e.1 with
  | some s => s.verdict base pos e.2
  | none => ⟨true, e.2⟩

variable {rule rule' : Rule} {base : Nat} {pos : Position}

theorem judgement_of_none {e : String × Value} (h : rule.governor? e.1 = none) :
    rule.judgement base pos e = ⟨true, e.2⟩ := by
  rw [judgement, h]

theorem judgement_of_some {e : String × Value} {s : Schema} (h : rule.governor? e.1 = some s) :
    rule.judgement base pos e = s.verdict base pos e.2 := by
  rw [judgement, h]

theorem judgement_congr {e : String × Value} (h : rule.governor? e.1 = rule'.governor? e.1) :
    rule.judgement base pos e = rule'.judgement base pos e := by
  rw [judgement, judgement, h]

/-- **`r` is the verdict on the entry**, up to fresh identities. An entry without a governor is left as it is. -/
structure Judges (rule : Rule) (base : Nat) (pos : Position) (e : String × Value) (r : Verdict) : Prop where
  ok : r.ok = (rule.judgement base pos e).ok
  value : r.value.forget base = (rule.judgement base pos e).value.forget base
  free : rule.governor? e.1 = none → r.value = e.2

/-- **`r` is the verdict on the object with these entries**, up to fresh identities. Each entry is judged by itself,
    and what is lacking is added, at the position of the entries. -/
def JudgesAll (rule : Rule) (base : Nat) (pos : Position) (entries : Fields Value) (r : Verdict) : Prop :=
  ∃ (rs : List (String × Verdict)) (added : Fields Value), r = .ofEntries rs added ∧
    List.Forall₂ (fun e r => r.1 = e.1 ∧ rule.Judges base pos e r.2) entries rs ∧
    List.Forall₂ (fun field a => (a.1, a.2.forget base) = (field.1, (field.2.injected base pos).forget base))
      (rule.lacking entries.keys) added

theorem JudgesAll.exists_entries {entries : Fields Value} {r : Verdict} (h : rule.JudgesAll base pos entries r) :
    ∃ entries', r.value = .object entries' := by
  obtain ⟨rs, added, rfl, -, -⟩ := h
  exact ⟨_, rfl⟩

/-- The verdicts on the entries are those of the rule, in the order of the entries. -/
theorem judges_map {entries : Fields Value} {rs : List (String × Verdict)}
    (h : List.Forall₂ (fun e r => r.1 = e.1 ∧ rule.Judges base pos e r.2) entries rs) :
    (rs.map fun r => (r.1, r.2.value.forget base)) =
        (entries.map fun e => (e.1, (rule.judgement base pos e).value.forget base)) ∧
      rs.all (·.2.ok) = entries.all fun e => (rule.judgement base pos e).ok := by
  refine ⟨forall₂_map_eq (h.imp fun e r hr => by rw [hr.1, hr.2.value]), ?_⟩
  rw [Bool.eq_iff_iff]
  refine (forall₂_all_iff ?_).trans List.all_eq_true.symm
  exact h.imp fun e r hr => by rw [hr.2.ok]

/-- Entries without a governor pass as they are. -/
theorem judges_ungoverned {entries : Fields Value} {rs : List (String × Verdict)}
    (h : List.Forall₂ (fun e r => r.1 = e.1 ∧ rule.Judges base pos e r.2) entries rs)
    (hfree : ∀ e ∈ entries, rule.governor? e.1 = none) : rs = entries.map fun e => (e.1, ⟨true, e.2⟩) := by
  induction h with
  | nil => rfl
  | @cons e r _ _ hr _ ih =>
      have he := hfree e List.mem_cons_self
      have hok : r.2.ok = true := hr.2.ok.trans (congrArg Verdict.ok (judgement_of_none he))
      have hvalue : r.2.value = e.2 := hr.2.free he
      rw [List.map_cons, ih fun e he => hfree e (List.mem_cons_of_mem _ he), ← hr.1, ← hok, ← hvalue]

/-- What is added is declared. -/
theorem mem_keys_of_added {present : List String} {added : Fields Value}
    (h : List.Forall₂ (fun field a => (a.1, a.2.forget base) = (field.1, (field.2.injected base pos).forget base))
      (rule.lacking present) added) {a : String × Value} (ha : a ∈ added) : a.1 ∈ rule.declared.keys := by
  obtain ⟨field, hf, hkey⟩ := exists_of_forall₂_right h ha
  rw [(Prod.mk.inj hkey).1]
  exact List.mem_map_of_mem (mem_lacking_iff.mp hf).1

/-- The keys of what is left: those that were there, and those that were lacking. -/
theorem keys_of_judged {entries added : Fields Value} {rs : List (String × Verdict)}
    (h : List.Forall₂ (fun e r => r.1 = e.1 ∧ rule.Judges base pos e r.2) entries rs)
    (hadded : List.Forall₂ (fun field a => (a.1, a.2.forget base) = (field.1, (field.2.injected base pos).forget base))
      (rule.lacking entries.keys) added) :
    Fields.keys (rs.map (fun r => (r.1, r.2.value)) ++ added) =
      entries.keys ++ Fields.keys (rule.lacking entries.keys) := by
  have hkeys : rs.map Prod.fst = entries.keys := forall₂_map_eq (h.imp fun _ _ hr => hr.1)
  have haddedkeys : added.keys = Fields.keys (rule.lacking entries.keys) :=
    forall₂_map_eq (hadded.imp fun _ _ ha => (Prod.mk.inj ha).1)
  rw [← haddedkeys, ← hkeys, Fields.keys, List.map_append, List.map_map]
  rfl

end Rule

namespace Schema

variable {base : Nat} {pos : Position} {default? : Option Value}

/-- Within the limit, impartial object rules give such verdicts. Only the entries with a governor need to be old. -/
theorem Impartial.gives_judgesAll {rule : Rule} (h : Impartial base ⟨default?, rule⟩) (hrule : rule.IsKeyed)
    (hpos : pos.exceeded = false) {entries : Fields Value}
    (hold : ∀ e ∈ entries, rule.governor? e.1 ≠ none → e.2.Old base) :
    Gives ⟨default?, rule⟩ base pos (.object entries) (rule.JudgesAll base pos.descend entries) := by
  rw [← List.map_id entries]
  refine gives_object_map (R := rule.Judges base pos.descend)
    (A := fun field v => v.forget base = (field.2.injected base pos.descend).forget base) hrule hpos ?_ ?_ ?_ ?_
  · intro e he s hs
    have hnone : rule.governor? e.1 ≠ none := hs ▸ Option.some_ne_none s
    have hs' : s.Impartial base := h.part (Rule.mem_parts_of_governor hs)
    have hjudgement : rule.judgement base pos.descend e = s.verdict base pos.descend e.2 :=
      Rule.judgement_of_some hs
    refine (hs'.gives_verdict (hold e he hnone) pos.descend).mono fun r hr => ?_
    exact ⟨hjudgement ▸ hr.1, hjudgement ▸ hr.2, fun hfree => absurd hfree hnone⟩
  · intro e _ hfree
    have hjudgement : rule.judgement base pos.descend e = ⟨true, e.2⟩ := Rule.judgement_of_none hfree
    exact ⟨hjudgement ▸ rfl, hjudgement ▸ rfl, fun _ => rfl⟩
  · intro field hf _ d hd
    have hfield : field.2.Impartial base := h.part (Rule.mem_parts_of_declared hf)
    rw [injected, hd]
    exact hfield.ensures_filled pos.descend d
  · intro rs added hrs hadded
    rw [List.map_id] at hadded ⊢
    exact ⟨rs, added, rfl, hrs, hadded.imp fun _ _ h => Prod.ext h.1 h.2⟩

/-- **An object is accepted** if it lies within the limit, and each entry that is declared is accepted. -/
theorem Impartial.verdict_object_ok_iff {fields : Fields Schema} {suggest : Bool}
    (h : Impartial base ⟨default?, .object fields suggest⟩) {v : Value} (hv : v.Old base) :
    (verdict ⟨default?, .object fields suggest⟩ base pos v).ok = true ↔
      pos.exceeded = false ∧ ∃ entries, v = .object entries ∧ ∀ e ∈ entries, ∀ s,
        fields.lookup e.1 = some s → (s.verdict base pos.descend e.2).ok = true := by
  by_cases hrefused : v.kind ≠ .object ∨ pos.exceeded = true
  · have hgives : Gives ⟨default?, .object fields suggest⟩ base pos v fun r => r.ok = false :=
      gives_refused rfl hrefused rfl
    rw [hgives.verdict]
    refine iff_of_false Bool.false_ne_true ?_
    rintro ⟨hpos, entries, rfl, -⟩
    exact hrefused.elim (fun hkind => hkind rfl) fun hdeep => Bool.false_ne_true (hpos.symm.trans hdeep)
  · obtain ⟨hkind, hdeep⟩ := not_or.mp hrefused
    have hpos : pos.exceeded = false := Bool.eq_false_iff.mpr hdeep
    obtain ⟨entries, rfl⟩ := Value.eq_object_of_kind (not_not.mp hkind)
    have hold : ∀ e ∈ entries, (Rule.object fields suggest).governor? e.1 ≠ none → e.2.Old base :=
      fun e he _ => Value.old_of_mem_fields hv he
    obtain ⟨rs, added, hverdict, hrs, -⟩ := (h.gives_judgesAll trivial hpos hold).verdict
    have hok : (Verdict.ofEntries rs added).ok = true ↔ ∀ e ∈ entries, ∀ s,
        fields.lookup e.1 = some s → (s.verdict base pos.descend e.2).ok = true := by
      refine Verdict.ofEntries_ok_iff (hrs.imp fun e r hr => ?_)
      rw [hr.2.ok, Rule.judgement, Rule.governor?]
      cases fields.lookup e.1 <;> simp
    rw [hverdict, hok]
    constructor
    · exact fun hall => ⟨hpos, entries, rfl, hall⟩
    · rintro ⟨-, _, ⟨⟩, hall⟩
      exact hall

/-! ## Merges lie between their sides -/

/-- **Plain objects throughout.** Both schemas are objects with declared keys and nothing else, and so are any two
    schemas under one key that will be merged. -/
inductive MergesPlainly : Schema → Schema → Prop
  | intro {a b : Schema} {left right : ClosedKeys} (ha : a.rule = .object left.fields left.suggest)
      (hb : b.rule = .object right.fields right.suggest)
      (below : ∀ key first second, left.fields.lookup key = some first → right.fields.lookup key = some second →
        first.mergeable?.isSome → second.mergeable?.isSome → MergesPlainly first second) : MergesPlainly a b

variable {options : MergeOptions} {a b m : Schema}

/-- **One key.** Under each key, the merge accepts what both sides accept there, and nothing that the second side
    refuses, if this holds of the schemas that are merged below. -/
theorem Merges.between {left right merged : Fields Schema} (h : Merges options left right merged)
    {P : Schema → Prop} (hrule : ∀ s t : Schema, s.rule = t.rule → P s → P t) (key : String)
    (below : ∀ first second n, left.lookup key = some first → right.lookup key = some second →
      merge options first second = .ok n → (P first → P second → P n) ∧ (P n → P second)) :
    ((∀ s ∈ left.lookup key, P s) → (∀ s ∈ right.lookup key, P s) →
        ∀ s ∈ merged.lookup key, P s) ∧
      ((∀ s ∈ merged.lookup key, P s) → ∀ s ∈ right.lookup key, P s) := by
  rcases h.entry_cases key with ⟨hright, hsame⟩ | ⟨-, hsame⟩ | ⟨first, second, s, hfirst, hsecond, hs, hsame⟩
  · -- Only the first side declares the key.
    constructor
    · intro hleft _ s hs
      rw [Option.mem_def.mp hs] at hsame
      obtain ⟨first, hfirst, hsame⟩ := Option.map_eq_some_iff.mp hsame.symm
      exact hrule first s hsame (hleft first hfirst)
    · intro _ s hs
      exact absurd (hright.symm.trans hs) (Option.some_ne_none s).symm
  · rw [hsame]
    exact ⟨fun _ hright => hright, fun hright => hright⟩
  · simp only [hfirst, hsecond, hs, Option.mem_some_iff, forall_eq']
    rcases hsame with hsame | ⟨n, hn, hsame⟩
    · exact ⟨fun _ hright => hrule second s hsame.symm hright, hrule s second hsame⟩
    · obtain ⟨hboth, hlast⟩ := below first second n hfirst hsecond hn
      exact ⟨fun hleft hright => hrule n s hsame.symm (hboth hleft hright), fun hm => hlast (hrule s n hsame hm)⟩

/-- **One value.** The merge accepts what both sides accept, and nothing that the second side refuses. -/
theorem MergesPlainly.verdict_between (hplain : MergesPlainly a b) (ha : a.Impartial base) (hb : b.Impartial base)
    (h : merge options a b = .ok m) (pos : Position) {v : Value} (hv : v.Old base) :
    ((a.verdict base pos v).ok = true → (b.verdict base pos v).ok = true → (m.verdict base pos v).ok = true) ∧
      ((m.verdict base pos v).ok = true → (b.verdict base pos v).ok = true) := by
  induction hplain generalizing m pos v with
  | @intro a b left right hrulea hruleb _ ih =>
    obtain ⟨default?, rule⟩ := a
    obtain ⟨default?', rule'⟩ := b
    obtain rfl : rule = .object left.fields left.suggest := hrulea
    obtain rfl : rule' = .object right.fields right.suggest := hruleb
    obtain ⟨left', right', merged, hleft, hright, hmerged, rfl⟩ := merges_of_merge h
    obtain rfl := Option.some.inj ((mergeable?_eq_some_iff.mpr ⟨rfl, rfl⟩).symm.trans hleft)
    obtain rfl := Option.some.inj ((mergeable?_eq_some_iff.mpr ⟨rfl, rfl⟩).symm.trans hright)
    have hm : Impartial base ⟨none, .object merged true⟩ := Everywhere.merge (fun _ _ => trivial) ha hb h
    -- What is merged below a shared key is plain again, so that the induction hypothesis applies.
    have hbelow : ∀ {key : String} {first second n : Schema}, left.fields.lookup key = some first →
        right.fields.lookup key = some second → merge options first second = .ok n → ∀ {x : Value}, x.Old base →
        ((first.verdict base pos.descend x).ok = true → (second.verdict base pos.descend x).ok = true →
          (n.verdict base pos.descend x).ok = true) ∧
        ((n.verdict base pos.descend x).ok = true → (second.verdict base pos.descend x).ok = true) := by
      intro key first second n hfirst hsecond hn x hx
      obtain ⟨_, _, _, hleft, hright, -, -⟩ := merges_of_merge hn
      have hfirst' : first.Impartial base := ha.part (List.mem_map_of_mem (Fields.mem_of_lookup hfirst))
      have hsecond' : second.Impartial base := hb.part (List.mem_map_of_mem (Fields.mem_of_lookup hsecond))
      exact ih key first second hfirst hsecond (Option.isSome_of_eq_some hleft) (Option.isSome_of_eq_some hright)
        hfirst' hsecond' hn pos.descend hx
    have hentry := fun (e : String × Value) (hx : e.2.Old base) =>
      hmerged.between (P := fun s => (s.verdict base pos.descend e.2).ok = true)
        (fun s t hrule hs => verdict_congr hrule base pos.descend e.2 ▸ hs) e.1
        (fun first second n hfirst hsecond hn => hbelow hfirst hsecond hn hx)
    rw [ha.verdict_object_ok_iff hv, hb.verdict_object_ok_iff hv]
    constructor
    · rintro ⟨hpos, entries, rfl, halla⟩ ⟨-, _, ⟨⟩, hallb⟩
      refine (hm.verdict_object_ok_iff hv).mpr ⟨hpos, entries, rfl, fun e he => ?_⟩
      exact (hentry e (Value.old_of_mem_fields hv he)).1 (halla e he) (hallb e he)
    · intro hok
      obtain ⟨hpos, entries, rfl, hall⟩ := (hm.verdict_object_ok_iff hv).mp hok
      exact ⟨hpos, entries, rfl, fun e he => (hentry e (Value.old_of_mem_fields hv he)).2 (hall e he)⟩

/-- **A merge lies between its sides.** On every document, each side being asked by itself, the merge of plain objects
    accepts what both accept, and nothing that the second refuses. -/
theorem isOk_merge_between (hplain : MergesPlainly a b) (ha : a.Impartial base) (hb : b.Impartial base)
    (h : merge options a b = .ok m) (limits : Limits) {v : Value} (hv : v.Old base) {next next' next'' : Nat}
    (hnext : base ≤ next) (hnext' : base ≤ next') (hnext'' : base ≤ next'') :
    let first := ((a.validate limits v).start next).result.outcome
    let second := ((b.validate limits v).start next').result.outcome
    let merged := ((m.validate limits v).start next'').result.outcome
    (first.isOk = true ∧ second.isOk = true → merged.isOk = true) ∧ (merged.isOk = true → second.isOk = true) := by
  intro first second merged
  have hm : m.Impartial base := Everywhere.merge (fun _ _ => trivial) ha hb h
  have hfirst : first.isOk = (a.verdict base (.root limits) v).ok := (ha.gives_verdict hv (.root limits) next hnext).1.1
  have hsecond : second.isOk = (b.verdict base (.root limits) v).ok :=
    (hb.gives_verdict hv (.root limits) next' hnext').1.1
  have hmerged : merged.isOk = (m.verdict base (.root limits) v).ok :=
    (hm.gives_verdict hv (.root limits) next'' hnext'').1.1
  obtain ⟨hboth, hright⟩ := hplain.verdict_between ha hb h (.root limits) hv
  rw [hfirst, hsecond, hmerged]
  exact ⟨fun hok => hboth hok.1 hok.2, hright⟩

/-- An overlay narrows a nested schema, in which the first side has a custom check. -/
theorem isOk_merge_between_overlay :
    let flag := custom "flag" fun _ v => Checker.ofKind .boolean "flag" (.root .strict) v
    let a := object [("mode", string.withDefault (.string "fast")),
      ("server", objectWith false [("host", string), ("tls", flag)])]
    let b := object [("server", (object [("host", compose string (oneOf [.string "h"]))]).withDefault (.object []))]
    let m := object [("mode", string), ("server",
      (object [("host", compose string (oneOf [.string "h"])), ("tls", flag)]).withDefault (.object []))]
    let v := Value.object [("server", .object [("tls", .bool true), ("host", .string "h")])]
    MergesPlainly a b ∧ a.Impartial 0 ∧ b.Impartial 0 ∧ merge ⟨true⟩ a b = .ok m ∧ v.Old 0 ∧ 0 ≤ 0 ∧
      ((a.validate .strict v).start 0).result.outcome.isOk = true ∧
      ((b.validate .strict v).start 0).result.outcome.isOk = true ∧
      ((m.validate .strict v).start 0).result.outcome.isOk = true := by
  intro flag a b m v
  have hplain : MergesPlainly a b := by
    refine @MergesPlainly.intro a b ⟨_, _⟩ ⟨_, _⟩ rfl rfl fun key first second hfirst hsecond _ _ => ?_
    obtain ⟨rfl, rfl⟩ := Prod.mk.inj (List.mem_singleton.mp (Fields.mem_of_lookup hsecond))
    obtain rfl := Option.some.inj hfirst
    refine @MergesPlainly.intro _ _ ⟨_, _⟩ ⟨_, _⟩ rfl rfl fun key first second hfirst hsecond hmergeable _ => ?_
    obtain ⟨rfl, rfl⟩ := Prod.mk.inj (List.mem_singleton.mp (Fields.mem_of_lookup hsecond))
    obtain rfl := Option.some.inj hfirst
    exact absurd hmergeable Bool.false_ne_true
  have ha : a.Impartial 0 := by
    have hflag : ∀ delay (_ : Limits) v, DelayedVerdict 0 delay _ _ := fun delay _ =>
      impartial_ofKind .boolean "flag" delay (.root .strict)
    simpa [Impartial, a, flag, Everywhere, Rule.Everywhere, EverywhereInFields, object, objectWith, withDefault, string,
      ofKind, custom, ofRule] using hflag
  have hb : b.Impartial 0 := CustomFree.impartial (by decide) (by decide)
  have hm : merge ⟨true⟩ a b = .ok m := rfl
  have hv : v.Old 0 := by decide
  have hok : ((a.validate .strict v).start 0).result.outcome.isOk = true := rfl
  have hok' : ((b.validate .strict v).start 0).result.outcome.isOk = true := rfl
  have hzero := Nat.le_refl 0
  have hbetween := isOk_merge_between hplain ha hb hm .strict hv hzero hzero hzero
  exact ⟨hplain, ha, hb, hm, hv, hzero, hok, hok', hbetween.1 ⟨hok, hok'⟩⟩

end Schema

/-! ## Merges of schemas without a common key -/

section Disjoint

variable {base : Nat} {pos : Position} {left right : Fields Schema} {suggest suggest' : Bool}

/-- No key is declared on both sides. -/
def Schema.DisjointKeys (left right : Fields Schema) : Prop := ∀ key ∈ left.keys, key ∉ right.keys

instance : Decidable (Schema.DisjointKeys left right) :=
  inferInstanceAs (Decidable (∀ key ∈ left.keys, key ∉ right.keys))

variable (hdisjoint : Schema.DisjointKeys left right)

namespace Rule

include hdisjoint

/-- What has a governor on the second side has none on the first. -/
theorem ungoverned_left {key : String} (h : (object right suggest').governor? key ≠ none) :
    (object left suggest).governor? key = none := by
  refine Fields.lookup_eq_none_iff_notMem.mpr fun hleft => h ?_
  exact Fields.lookup_eq_none_iff_notMem.mpr (hdisjoint key hleft)

/-- **Two verdicts on one entry are that of all keys.** If the left side judges the entry, and then the right side
    what is left of it, both have judged it as the two sides do together. -/
theorem Judges.append {e : String × Value} {r r' : Verdict} (h : (object left suggest).Judges base pos e r)
    (h' : (object right suggest').Judges base pos (e.1, r.value) r') :
    (object (left ++ right) true).Judges base pos e ⟨r.ok && r'.ok, r'.value⟩ := by
  have hgovernor : (object (left ++ right) true).governor? e.1 =
      ((object left suggest).governor? e.1).or ((object right suggest').governor? e.1) := List.lookup_append
  -- With disjoint keys, one of the two passes leaves the entry as it is.
  cases hright : (object right suggest').governor? e.1 with
  | none =>
      rw [hright, Option.or_none] at hgovernor
      have hok : r'.ok = true := h'.ok.trans (congrArg Verdict.ok (judgement_of_none (e := (e.1, r.value)) hright))
      have hvalue : r'.value = r.value := h'.free hright
      rw [hok, hvalue, Bool.and_true]
      refine ⟨?_, ?_, fun hnone => h.free (hgovernor ▸ hnone)⟩ <;> rw [judgement_congr hgovernor]
      · exact h.ok
      · exact h.value
  | some s =>
      have hleft : (object left suggest).governor? e.1 = none :=
        ungoverned_left hdisjoint (hright ▸ Option.some_ne_none s)
      rw [hleft, Option.none_or, hright] at hgovernor
      have hok : r.ok = true := h.ok.trans (congrArg Verdict.ok (judgement_of_none hleft))
      rw [h.free hleft] at h'
      rw [hok, Bool.true_and]
      refine ⟨?_, ?_, fun hnone => absurd (hgovernor.symm.trans hnone) (Option.some_ne_none s)⟩ <;>
        rw [judgement_congr (hgovernor.trans hright.symm)]
      · exact h'.ok
      · exact h'.value

/-- What one pass over all entries and then another make of them, all keys together make of them in one. -/
theorem judges_append {entries : Fields Value} {rs rs' : List (String × Verdict)}
    (h : List.Forall₂ (fun e r => r.1 = e.1 ∧ (object left suggest).Judges base pos e r.2) entries rs)
    (h' : List.Forall₂ (fun e r => r.1 = e.1 ∧ (object right suggest').Judges base pos e r.2)
      (rs.map fun r => (r.1, r.2.value)) rs') :
    (rs'.map fun r => (r.1, r.2.value.forget base)) =
        (entries.map fun e => (e.1, ((object (left ++ right) true).judgement base pos e).value.forget base)) ∧
      (rs.all (·.2.ok) && rs'.all (·.2.ok)) =
        entries.all fun e => ((object (left ++ right) true).judgement base pos e).ok := by
  induction h generalizing rs' with
  | nil =>
      cases h'
      exact ⟨rfl, rfl⟩
  | @cons e r entries rs hr _ ih =>
      rw [List.map_cons] at h'
      cases h' with
      | @cons _ r' _ rs' hr' hrest =>
          obtain ⟨hvalues, hoks⟩ := ih hrest
          obtain ⟨hkey, hjudges⟩ := hr
          obtain ⟨hkey', hjudges'⟩ := hr'
          rw [hkey] at hjudges' hkey'
          have hboth := hjudges.append hdisjoint hjudges'
          rw [List.map_cons, List.map_cons, hvalues, List.all_cons, List.all_cons, List.all_cons, ← hoks, ← hboth.ok,
            ← hboth.value, hkey']
          refine ⟨rfl, ?_⟩
          show (r.2.ok && rs.all _ && (r'.2.ok && rs'.all _)) = (r.2.ok && r'.2.ok && (rs.all _ && rs'.all _))
          rw [Bool.and_assoc, Bool.and_assoc, Bool.and_left_comm (rs.all _)]

omit hdisjoint in
theorem lacking_append (suggest suggest' : Bool) (present : List String) :
    (object (left ++ right) true).lacking present =
      (object left suggest).lacking present ++ (object right suggest').lacking present :=
  List.filter_append left right

/-- The keys that the left side adds are not those that the right side looks for. -/
theorem lacking_append_keys (present : List String) :
    (object right suggest').lacking (present ++ Fields.keys ((object left suggest).lacking present)) =
      (object right suggest').lacking present := by
  refine List.filter_congr fun field hf => ?_
  have hnew : field.1 ∉ Fields.keys ((object left suggest).lacking present) := by
    intro hkey
    obtain ⟨other, hother, heq⟩ := List.mem_map.mp hkey
    refine hdisjoint field.1 ?_ (List.mem_map_of_mem hf)
    exact heq ▸ List.mem_map_of_mem (List.mem_filter.mp hother).1
  simp [hnew]

/-- What the left side leaves for the right side to judge is still old. -/
theorem JudgesAll.old {entries entries' : Fields Value} {r : Verdict}
    (h : (object left suggest).JudgesAll base pos entries r) (hr : r.value = .object entries')
    (hold : (Value.object entries).Old base) :
    ∀ e ∈ entries', (object right suggest').governor? e.1 ≠ none → e.2.Old base := by
  obtain ⟨rs, added, rfl, hrs, hadded⟩ := h
  obtain rfl := Value.object.inj hr
  intro e he hgoverned
  have hleft : (object left suggest).governor? e.1 = none := ungoverned_left hdisjoint hgoverned
  rcases List.mem_append.mp he with he | he
  · obtain ⟨r, hr, rfl⟩ := List.mem_map.mp he
    obtain ⟨e, he, hkey, hjudges⟩ := exists_of_forall₂_right hrs hr
    show r.2.value.Old base
    rw [hjudges.free (hkey ▸ hleft)]
    exact Value.old_of_mem_fields hold he
  · exact absurd (mem_keys_of_added hadded he) (Fields.lookup_eq_none_iff_notMem.mp hleft)

/-- **One pass is two passes.** If the left side judges an object, and then the right side what is left of it, all
    keys together judge the object as both do, and leave what is left in the end. -/
theorem JudgesAll.append {entries entries' : Fields Value} {r r' m : Verdict}
    (h : (object left suggest).JudgesAll base pos entries r) (hr : r.value = .object entries')
    (h' : (object right suggest').JudgesAll base pos entries' r')
    (hm : (object (left ++ right) true).JudgesAll base pos entries m) :
    m.value.forget base = r'.value.forget base ∧ m.ok = (r.ok && r'.ok) := by
  obtain ⟨rs, added, rfl, hrs, hadded⟩ := h
  obtain rfl := Value.object.inj hr
  obtain ⟨rs', added', rfl, hrs', hadded'⟩ := h'
  obtain ⟨ms, addedm, rfl, hms, haddedm⟩ := hm
  -- The right side goes through the entries, then through what the left side has added, which it leaves alone.
  obtain ⟨rs', rest, rfl, hrs', hrest⟩ := forall₂_append_left hrs'
  obtain ⟨hvalues, hoks⟩ := judges_append hdisjoint hrs hrs'
  have hfree : ∀ a ∈ added, (object right suggest').governor? a.1 = none := fun a ha =>
    Fields.lookup_eq_none_iff_notMem.mpr (hdisjoint a.1 (mem_keys_of_added hadded ha))
  obtain rfl := judges_ungoverned hrest hfree
  -- Both ways, the same is lacking.
  rw [keys_of_judged hrs hadded, lacking_append_keys hdisjoint] at hadded'
  rw [lacking_append suggest suggest'] at haddedm
  obtain ⟨addedl, addedr, rfl, haddedl, haddedr⟩ := forall₂_append_left haddedm
  obtain ⟨hmvalues, hmoks⟩ := judges_map hms
  constructor
  · show Value.forget base (.object _) = Value.forget base (.object _)
    have hl : (addedl.map fun a => (a.1, a.2.forget base)) = added.map fun a => (a.1, a.2.forget base) :=
      (forall₂_map_eq haddedl).trans (forall₂_map_eq hadded).symm
    have hr : (addedr.map fun a => (a.1, a.2.forget base)) = added'.map fun a => (a.1, a.2.forget base) :=
      (forall₂_map_eq haddedr).trans (forall₂_map_eq hadded').symm
    rw [Value.forget_object, Value.forget_object]
    simp only [List.map_append, List.map_map, Function.comp_def]
    rw [hmvalues, hvalues, hl, hr, List.append_assoc]
  · show ms.all _ = (rs.all _ && List.all (_ ++ _) _)
    have hpass : (added.map fun a => (a.1, (⟨true, a.2⟩ : Verdict))).all (·.2.ok) = true := by
      rw [List.all_map]
      exact List.all_eq_true.mpr fun _ _ => rfl
    rw [hmoks, ← hoks, List.all_append, hpass, Bool.and_true]

end Rule

namespace Schema

omit hdisjoint in
/-- What is no object is refused, and left as it is. -/
theorem verdict_of_kind_ne {fields : Fields Schema} {v : Value} (hkind : v.kind ≠ .object) (limits : Limits)
    (next : Nat) : (((objectWith suggest fields).validate limits v).start next).result.verdict = ⟨false, v⟩ := by
  have hgives : (objectWith suggest fields).Gives 0 (.root limits) v fun r => r = ⟨false, v⟩ :=
    gives_refused rfl (.inl hkind) rfl
  exact (hgives next (Nat.zero_le next)).1

include hdisjoint

/-- The merge of such schemas has the keys of both, as they are. -/
theorem merge_disjoint :
    merge .standard (objectWith suggest left) (objectWith suggest' right) = .ok (object (left ++ right)) := by
  have hsettled : List.Forall₂ (SettledOn .standard right) left left := by
    refine List.forall₂_same.mpr fun field hf => ⟨rfl, ?_⟩
    have hnone : right.lookup field.1 = none :=
      Fields.lookup_eq_none_iff_notMem.mpr (hdisjoint field.1 (List.mem_map_of_mem hf))
    rw [hnone]
    rfl
  have hadded : (right.filter fun e => !left.has e.1) = right := by
    refine List.filter_eq_self.mpr fun field hf => ?_
    have hnot : ¬ left.has field.1 = true := fun hleft =>
      hdisjoint field.1 (Fields.has_iff_mem_keys.mp hleft) (List.mem_map_of_mem hf)
    simpa using hnot
  refine merge_eq_ok_iff_mergeBoth.mpr ⟨⟨left, suggest⟩, ⟨right, suggest'⟩, left ++ right,
    mergeable?_objectWith suggest left, mergeable?_objectWith suggest' right, ?_, rfl⟩
  exact result_mergeBoth_eq_ok_iff.mpr ⟨left, hsettled, by rw [hadded]⟩

/-- **To validate with the merge is to validate with both in turn.** If two object schemas have no key in common, they
    merge, and on every document the merge leaves what the second leaves of what the first leaves, up to fresh
    identities, and is content if both are. -/
theorem validate_merge_disjoint (ha : (objectWith suggest left).Impartial base)
    (hb : (objectWith suggest' right).Impartial base) :
    ∃ m, merge .standard (objectWith suggest left) (objectWith suggest' right) = .ok m ∧
      ∀ (limits : Limits) (v : Value) (next next' : Nat), v.Old base → base ≤ next → base ≤ next' →
        let first := ((objectWith suggest left).validate limits v).start next
        let second := ((objectWith suggest' right).validate limits first.result.value).start first.next
        let merged := (m.validate limits v).start next'
        merged.result.value.forget base = second.result.value.forget base ∧
          (merged.result.outcome.isOk = true ↔
            first.result.outcome.isOk = true ∧ second.result.outcome.isOk = true) := by
  refine ⟨object (left ++ right), merge_disjoint hdisjoint, ?_⟩
  intro limits v next next' hv hnext hnext' first second merged
  have hm : (object (left ++ right)).Impartial base :=
    Everywhere.merge (fun _ _ => trivial) ha hb (merge_disjoint hdisjoint)
  have hpos : (Position.root limits).exceeded = false := Position.exceeded_eq_false_iff.mpr (Nat.zero_le _)
  by_cases hkind : v.kind = .object
  · obtain ⟨entries, rfl⟩ := Value.eq_object_of_kind hkind
    obtain ⟨hfirst, hbase⟩ := ha.gives_judgesAll trivial hpos (fun e he _ => Value.old_of_mem_fields hv he) next hnext
    obtain ⟨entries', hvalue⟩ := hfirst.exists_entries
    obtain ⟨hsecond, -⟩ := hb.gives_judgesAll trivial hpos (hfirst.old hdisjoint hvalue hv) first.next hbase
    rw [← hvalue] at hsecond
    obtain ⟨hmerged, -⟩ :=
      hm.gives_judgesAll trivial hpos (fun e he _ => Value.old_of_mem_fields hv he) next' hnext'
    obtain ⟨hforget, hok⟩ := hfirst.append hdisjoint hvalue hsecond hmerged
    refine ⟨hforget, ?_⟩
    rw [← Bool.and_eq_true]
    exact Bool.eq_iff_iff.mp hok
  · have hfirst : first.result.verdict = ⟨false, v⟩ := verdict_of_kind_ne hkind limits next
    have hsecond : second.result.verdict = ⟨false, v⟩ := by
      have hvalue : first.result.value = v := congrArg Verdict.value hfirst
      show Checked.verdict (Ran.result (Run.start (validate _ limits first.result.value) _)) = _
      rw [hvalue]
      exact verdict_of_kind_ne hkind limits first.next
    have hmerged : merged.result.verdict = ⟨false, v⟩ := verdict_of_kind_ne hkind limits next'
    refine ⟨congrArg (Value.forget base) (congrArg Verdict.value (hmerged.trans hsecond.symm)), ?_⟩
    have hrefused : merged.result.outcome.isOk = false := congrArg Verdict.ok hmerged
    have hrefused' : first.result.outcome.isOk = false := congrArg Verdict.ok hfirst
    rw [hrefused, hrefused']
    simp

end Schema

end Disjoint

namespace Schema

/-- A plugin adds a key with a callable default to a schema with a custom check; the identities differ. -/
theorem validate_merge_disjoint_plugin :
    let flag := custom "flag" fun _ v => Checker.ofKind .boolean "flag" (.root .strict) v
    let left := [("tls", flag), ("hook", function.withDefault (.function ⟨0, "id"⟩))]
    let right := [("server", (object [("start", function.withDefault (.function ⟨0, "id"⟩))]).withDefault (.object []))]
    let v := Value.object [("tls", .bool true), ("log", .function ⟨0, "id"⟩)]
    let completed (id id' : Nat) := Value.object [("tls", .bool true), ("log", .function ⟨0, "id"⟩),
      ("hook", .function ⟨id, "id"⟩), ("server", .object [("start", .function ⟨id', "id"⟩)])]
    DisjointKeys left right ∧ (objectWith true left).Impartial 1 ∧ (objectWith false right).Impartial 1 ∧
      v.Old 1 ∧ 1 ≤ 1 ∧ 1 ≤ 5 ∧
      ∃ m, merge .standard (objectWith true left) (objectWith false right) = .ok m ∧
        ((m.validate .strict v).start 5).result.value.forget 1 = (completed 1 2).forget 1 := by
  intro flag left right v completed
  have hdisjoint : DisjointKeys left right := by decide
  have hleft : (objectWith true left).Impartial 1 := by
    have hflag : ∀ delay (_ : Limits) v, DelayedVerdict 1 delay _ _ := fun delay _ =>
      impartial_ofKind .boolean "flag" delay (.root .strict)
    simpa [Impartial, left, flag, Everywhere, Rule.Everywhere, EverywhereInFields, objectWith, withDefault, function,
      ofKind, custom, ofRule] using hflag
  have hright : (objectWith false right).Impartial 1 := CustomFree.impartial (by decide) (by decide)
  have hv : v.Old 1 := by decide
  obtain ⟨m, hm, hrun⟩ := validate_merge_disjoint hdisjoint hleft hright
  have hvalue := (hrun .strict v 1 5 hv (by decide) (by decide)).1
  exact ⟨hdisjoint, hleft, hright, hv, by decide, by decide, m, hm, hvalue⟩

end Schema

end ConfigSchema
