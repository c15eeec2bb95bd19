import ConfigSchema.Proofs.Growth
import ConfigSchema.Proofs.Layering

/-!
# `Rule.completion` — what is left of an object, entry by entry

The check of an object goes over its entries, and then over the declared keys, and adds those that it lacks. This
module says what the object is afterwards, in closed form (`check_entryByEntry`). It holds alike for objects with
declared keys and for those with arbitrary ones.

* The keys are those of the object, in their order, and behind them those that were lacking, in the order of their
  declaration.
* Under a key that was there is what its governor leaves when it is run on that entry alone, one level further down,
  and under a key that was lacking, what its schema leaves of a copy of its default.

Each of these runs draws its fresh identities from a supply, and it is only through the supply that one entry has
to do with the others: `Rule.completion` gives every key a supply of its own, and whichever these are, the object
is the same up to fresh identities.
-/

namespace ConfigSchema

/-! ## The closed form -/

/-- Fresh identities are forgotten under each key. -/
theorem Value.get?_forget (base : Nat) (v : Value) (key : String) :
    (v.forget base).get? key = (v.get? key).map (forget base) := by
  cases v with
  | object fields =>
      rw [forget_object]
      exact Fields.lookup_map (fun e => e.2.forget base) fields key
  | _ => rfl

namespace Rule

/-- **What is left of an object** with these entries, if `supply` has the first fresh identity for each key. -/
def completion (rule : Rule) (supply : String → Nat) (pos : Position) (entries : Fields Value) : Fields Value :=
  (entries.map fun e => (e.1, (rule.judgement (supply e.1) pos e).value)) ++
    (rule.lacking entries.keys).map fun field => (field.1, field.2.injected (supply field.1) pos)

variable {rule : Rule}

/-- What is lacking under a key that is not there has nothing to do with the keys that are. -/
theorem lookup_lacking {present : List String} {key : String} (h : key ∉ present) :
    (rule.lacking present).lookup key = (rule.lacking []).lookup key := by
  have hfilter : rule.lacking present = (rule.lacking []).filter fun field => field.1 ∉ present := by
    rw [lacking, lacking, List.filter_filter]
    refine List.filter_congr fun field _ => ?_
    simp
  rw [hfilter]
  exact Fields.lookup_filter (p := fun k => decide (k ∉ present)) (decide_eq_true h) _

/-- **Independence of the keys.** What is left under a key depends on the entry there, or on that there is none. -/
theorem lookup_completion_congr {entries entries' : Fields Value} {key : String}
    (h : entries.lookup key = entries'.lookup key) (supply : String → Nat) (pos : Position) :
    (rule.completion supply pos entries).lookup key = (rule.completion supply pos entries').lookup key := by
  simp only [completion, List.lookup_append, Fields.lookup_map]
  rw [h]
  cases hl' : entries'.lookup key with
  | some v => rfl
  | none =>
      -- Under a key that neither object has, both lack the same.
      have hkey : key ∉ entries.keys := Fields.lookup_eq_none_iff_notMem.mp (h.trans hl')
      have hkey' : key ∉ entries'.keys := Fields.lookup_eq_none_iff_notMem.mp hl'
      rw [lookup_lacking hkey, lookup_lacking hkey']

/-- **Run alone.** `left` is what is left of the entries, each being judged from some supply from `base` on. -/
def Completes (rule : Rule) (base : Nat) (pos : Position) (entries left : Fields Value) : Prop :=
  ∃ present added, left = present ++ added ∧
    List.Forall₂ (fun e p => p.1 = e.1 ∧ ∃ n ≥ base, p.2 = (rule.judgement n pos e).value) entries present ∧
    List.Forall₂ (fun field a => a.1 = field.1 ∧ ∃ n ≥ base, a.2 = field.2.injected n pos)
      (rule.lacking entries.keys) added

end Rule

namespace Schema

variable {base : Nat} {pos : Position} {default? : Option Value} {rule : Rule}

/-- Within the limit, an object is completed entry by entry. -/
theorem gives_completes (hrule : rule.IsKeyed) (hc : CustomFree ⟨default?, rule⟩) (hpos : pos.exceeded = false)
    (base : Nat) (entries : Fields Value) :
    Gives ⟨default?, rule⟩ base pos (.object entries) fun r =>
      ∃ left, r.value = .object left ∧ rule.Completes base pos.descend entries left := by
  have hpart : ∀ t ∈ rule.parts, ∀ pos v, t.Gives base pos v fun _ => True := by
    intro t ht pos v
    exact (gives_growsInto (hc.part ht) (injectsOnly_injects t) base pos v).mono fun _ _ => trivial
  rw [← List.map_id entries]
  refine gives_object_map (R := fun e r => ∃ n ≥ base, r.value = (rule.judgement n pos.descend e).value)
    (A := fun field v => ∃ n ≥ base, v = field.2.injected n pos.descend) hrule hpos ?_ ?_ ?_ ?_
  · intro e _ s hs
    refine (hpart s (Rule.mem_parts_of_governor hs) pos.descend e.2).yields.mono ?_
    rintro _ ⟨n, hn, rfl⟩
    exact ⟨n, hn, (congrArg Verdict.value (Rule.judgement_of_some hs)).symm⟩
  · intro e _ hfree
    exact ⟨base, Nat.le_refl base, (congrArg Verdict.value (Rule.judgement_of_none hfree)).symm⟩
  · intro field hf _ d hd
    have hfill : (field.2.fill pos.descend d).Ensures base fun _ => True :=
      Gives.fill (hpart field.2 (Rule.mem_parts_of_declared hf) pos.descend) fun _ _ _ => trivial
    refine hfill.yields.mono ?_
    rintro _ ⟨n, hn, rfl⟩
    exact ⟨n, hn, by rw [injected, hd]; rfl⟩
  · intro rs added hrs hadded
    refine ⟨_, rfl, rs.map fun r => (r.1, r.2.value), added, rfl, ?_, hadded⟩
    rw [List.map_id]
    exact List.forall₂_map_right_iff.mpr hrs

/-! ## Whatever the supplies -/

/-- The verdict on an entry leaves the same from any supply, up to fresh identities. -/
theorem Impartial.forget_judgement (h : Impartial base ⟨default?, rule⟩) (pos : Position) {e : String × Value}
    (he : e.2.Old base) {n n' : Nat} (hn : base ≤ n) (hn' : base ≤ n') :
    (rule.judgement n pos e).value.forget base = (rule.judgement n' pos e).value.forget base := by
  rw [Rule.judgement, Rule.judgement]
  cases hs : rule.governor? e.1 with
  | none => rfl
  | some s =>
      have hs' : s.Impartial base := h.part (Rule.mem_parts_of_governor hs)
      have hgives := hs'.gives_verdict he pos
      exact (hgives n hn).1.2.trans (hgives n' hn').1.2.symm

/-- So does the run on a copy of a default. -/
theorem Impartial.forget_injected {s : Schema} (h : s.Impartial base) (pos : Position) {n n' : Nat} (hn : base ≤ n)
    (hn' : base ≤ n') : (s.injected n pos).forget base = (s.injected n' pos).forget base := by
  rw [injected, injected]
  cases s.default? with
  | none => rfl
  | some d =>
      have hfilled := h.ensures_filled pos d
      exact (hfilled n hn).1.trans (hfilled n' hn').1.symm

/-- Whatever supplies the entries are judged from, what is left is the same up to fresh identities. -/
theorem Impartial.forget_completes (h : Impartial base ⟨default?, rule⟩) {entries left : Fields Value} {next : Nat}
    (hold : ∀ e ∈ entries, e.2.Old base) (hnext : base ≤ next) (hleft : rule.Completes next pos entries left)
    {supply : String → Nat} (hsupply : ∀ key, base ≤ supply key) :
    (Value.object left).forget base = (Value.object (rule.completion supply pos entries)).forget base := by
  obtain ⟨present, added, rfl, hpresent, hadded⟩ := hleft
  have hentry : ∀ e e' p : String × Value, e ∈ entries ∧ e' = e →
      (p.1 = e'.1 ∧ ∃ n ≥ next, p.2 = (rule.judgement n pos e').value) →
      (p.1, p.2.forget base) = (e.1, (rule.judgement (supply e.1) pos e).value.forget base) := by
    rintro _ e p ⟨he, rfl⟩ ⟨hkey, n, hn, hvalue⟩
    rw [hkey, hvalue, h.forget_judgement pos (hold e he) (Nat.le_trans hnext hn) (hsupply e.1)]
  have hfield : ∀ field field' : String × Schema, ∀ a : String × Value,
      field ∈ rule.lacking entries.keys ∧ field' = field →
      (a.1 = field'.1 ∧ ∃ n ≥ next, a.2 = field'.2.injected n pos) →
      (a.1, a.2.forget base) = (field.1, (field.2.injected (supply field.1) pos).forget base) := by
    rintro _ field a ⟨hf, rfl⟩ ⟨hkey, n, hn, hvalue⟩
    have hpart : field.2.Impartial base := h.part (Rule.mem_parts_of_declared (Rule.mem_lacking_iff.mp hf).1)
    rw [hkey, hvalue, hpart.forget_injected pos (Nat.le_trans hnext hn) (hsupply field.1)]
  have hpresent' := forall₂_map_eq (forall₂_trans hentry (forall₂_self entries) hpresent)
  have hadded' := forall₂_map_eq (forall₂_trans hfield (forall₂_self _) hadded)
  rw [Value.forget_object, Value.forget_object, Rule.completion, List.map_append, List.map_append, hpresent',
    hadded', List.map_map, List.map_map]
  rfl

/-! ## The object afterwards -/

/-- The value that the check leaves. -/
def left (s : Schema) (pos : Position) (v : Value) (next : Nat) : Value := ((s.check pos v).start next).result.value

theorem completes_left (hrule : rule.IsKeyed) (hc : CustomFree ⟨default?, rule⟩) (hpos : pos.exceeded = false)
    (entries : Fields Value) (next : Nat) :
    ∃ fields, left ⟨default?, rule⟩ pos (.object entries) next = .object fields ∧
      rule.Completes next pos.descend entries fields :=
  (gives_completes hrule hc hpos next entries next (Nat.le_refl next)).1

theorem Impartial.forget_left (h : Impartial base ⟨default?, rule⟩) (hrule : rule.IsKeyed)
    (hc : CustomFree ⟨default?, rule⟩) (hpos : pos.exceeded = false) {entries : Fields Value}
    (hold : (Value.object entries).Old base) {next : Nat} (hnext : base ≤ next) {supply : String → Nat}
    (hsupply : ∀ key, base ≤ supply key) :
    (left ⟨default?, rule⟩ pos (.object entries) next).forget base =
      (Value.object (rule.completion supply pos.descend entries)).forget base := by
  obtain ⟨fields, hleft, hcompletes⟩ := completes_left hrule hc hpos entries next
  rw [hleft]
  exact h.forget_completes (fun e he => Value.old_of_mem_fields hold he) hnext hcompletes hsupply

/-- **An object after validation, entry by entry.** The rule declares keys, or governs arbitrary ones, and there are
    no custom checks. What is no object, or lies too deep, is left as it is. An object within the limit becomes its
    completion: each entry is what its governor leaves of it when it is run alone, one level further down, and behind
    the entries comes what is lacking, each key with what its schema leaves of a copy of the default. Whatever supplies
    the single runs draw from, the object is the same up to fresh identities, and what it has under a key depends on
    nothing but the entry that was there. -/
theorem check_entryByEntry (hrule : rule.IsKeyed) (hc : CustomFree ⟨default?, rule⟩) (pos : Position) (v : Value)
    (next : Nat) :
    let s : Schema := ⟨default?, rule⟩
    (v.kind ≠ .object ∨ pos.limits.maxDepth < pos.depth → s.left pos v next = v) ∧
      (pos.depth < depthCeiling → pos.descend = ⟨pos.limits, pos.depth + 1⟩) ∧
      ∀ entries, v = .object entries → pos.depth ≤ pos.limits.maxDepth →
        (∃ fields, s.left pos v next = .object fields ∧ rule.Completes next pos.descend entries fields) ∧
          ∀ base ≤ next, v.Old base → s.OldLiterals base →
            (∀ supply : String → Nat, (∀ key, base ≤ supply key) →
              (s.left pos v next).forget base =
                (Value.object (rule.completion supply pos.descend entries)).forget base) ∧
            ∀ entries' next' key, (Value.object entries').Old base → base ≤ next' →
              entries.lookup key = entries'.lookup key →
              ((s.left pos v next).get? key).map (Value.forget base) =
                ((s.left pos (.object entries') next').get? key).map (Value.forget base) := by
  intro s
  refine ⟨fun hrefused => ?_, fun hdepth => ?_, ?_⟩
  · have hrefused' : v.kind ≠ .object ∨ pos.exceeded = true := hrefused.imp_right decide_eq_true
    have hgives : s.Gives 0 pos v fun r => r.value = v :=
      gives_refused (Rule.container?_of_isKeyed hrule) hrefused' rfl
    exact (hgives next (Nat.zero_le next)).1
  · rw [Position.descend, Nat.min_eq_left hdepth]
  · rintro entries rfl hdepth
    have hpos : pos.exceeded = false := Position.exceeded_eq_false_iff.mpr hdepth
    refine ⟨completes_left hrule hc hpos entries next, fun base hnext hold hliterals => ?_⟩
    have himpartial : s.Impartial base := hc.impartial hliterals
    refine ⟨fun supply hsupply => himpartial.forget_left hrule hc hpos hold hnext hsupply, ?_⟩
    intro entries' next' key hold' hnext' hentry
    have hsame : (rule.completion (fun _ => base) pos.descend entries).lookup key = _ :=
      Rule.lookup_completion_congr hentry (fun _ => base) pos.descend
    have hbase : ∀ key : String, base ≤ (fun _ => base) key := fun _ => Nat.le_refl base
    rw [← Value.get?_forget, ← Value.get?_forget, himpartial.forget_left hrule hc hpos hold hnext hbase,
      himpartial.forget_left hrule hc hpos hold' hnext' hbase, Value.get?_forget, Value.get?_forget]
    exact congrArg (Option.map (Value.forget base)) hsame

/-- The run on the default of `mode` fails, and the default is added all the same. -/
theorem check_entryByEntry_server :
    let tls := object [("port", string.withDefault (.string "443"))]
    let rule := Rule.object [("name", string), ("hook", function.withDefault (.function ⟨5, "log"⟩)),
      ("tls", tls.withDefault (.object [])), ("mode", string.withDefault .null)] false
    let s : Schema := ⟨none, rule⟩
    let pos : Position := ⟨.strict, 3⟩
    let entries : Fields Value := [("extra", .function ⟨0, "log"⟩), ("name", .null)]
    let fields : Fields Value := [("extra", .function ⟨0, "log"⟩), ("name", .null), ("hook", .function ⟨1, "log"⟩),
      ("tls", .object [("port", .string "443")]), ("mode", .null)]
    (rule.IsKeyed ∧ s.CustomFree ∧ pos.depth ≤ pos.limits.maxDepth ∧ (Value.object entries).Old 1 ∧ s.OldLiterals 1) ∧
      s.left pos (.object entries) 1 = .object fields ∧ rule.Completes 1 pos.descend entries fields ∧
      ((s.left pos (.object entries) 1).get? "hook").map (Value.forget 1) =
        ((s.left pos (.object []) 7).get? "hook").map (Value.forget 1) ∧
      s.left ⟨.strict, 51⟩ (.object entries) 1 = .object entries := by
  intro tls rule s pos entries fields
  have hrule : rule.IsKeyed := trivial
  have hc : s.CustomFree := by decide
  have hdepth : pos.depth ≤ pos.limits.maxDepth := by decide
  have hold : (Value.object entries).Old 1 := by decide
  have hliterals : s.OldLiterals 1 := by decide
  have hfields : s.left pos (.object entries) 1 = .object fields := rfl
  obtain ⟨-, -, hobject⟩ := @check_entryByEntry none rule hrule hc pos (.object entries) 1
  obtain ⟨⟨fields', hleft, hcompletes⟩, hbase⟩ := hobject entries rfl hdepth
  obtain rfl : fields' = fields := Value.object.inj (hleft.symm.trans hfields)
  have hindependent := (hbase 1 (by decide) hold hliterals).2 [] 7 "hook" (by decide) (by decide) rfl
  have hdeep := (@check_entryByEntry none rule hrule hc ⟨.strict, 51⟩ (.object entries) 1).1 (.inr (by decide))
  exact ⟨⟨hrule, hc, hdepth, hold, hliterals⟩, hfields, hcompletes, hindependent, hdeep⟩

end Schema

end ConfigSchema
