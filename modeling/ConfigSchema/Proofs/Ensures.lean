import Mathlib.Data.List.Forall2
import ConfigSchema.Run

/-!
# `Run.Ensures` — what a run yields, and when two runs agree

A run draws identities from a supply, and everything that is claimed of a validation is claimed of every
supply it may start from. This module has the four forms in which such claims are made and carried through a
computation.

* `Run.Ensures base post run` — from every supply that starts at `base` or later, the run yields a result
  that satisfies `post`, and leaves a supply that again starts at `base` or later. With `base` above all
  identities in use, the identities drawn are fresh; with `base = 0` nothing is said about them.
* `Run.Agree same r s` — from one and the same supply, `r` and `s` yield results related by `same` and leave
  the same supply. Their logs may differ.
* `Run.Coincide same r s` — from any two supplies, `r` and `s` yield results related by `same`. So what `same`
  compares depends on no identity that is drawn.
* `Run.CoincideFrom base same r s` — the same of any two supplies that start at `base` or later, as the supplies
  then do that are left. So what `same` compares may depend on which identities are fresh, but on no more.

Each form has one rule per monad operation, the last of which goes through a whole list (`Ensures.mapM`,
`Agree.mapM`, `Coincide.mapM`, `CoincideFrom.mapM`): the results of a `List.mapM` are related to its inputs one by
one.
-/

namespace ConfigSchema

variable {α β γ δ : Type}

/-! ## Lists of results -/

theorem forall₂_all_iff {p : β → Bool} {q : α → Prop} {l : List α} {m : List β}
    (h : List.Forall₂ (fun a b => p b = true ↔ q a) l m) : m.all p = true ↔ ∀ a ∈ l, q a := by
  induction h with
  | nil => simp
  | cons hab _ ih => rw [List.all_cons, Bool.and_eq_true, hab, ih, List.forall_mem_cons]

theorem forall₂_map_eq {f : α → γ} {g : β → γ} {l : List α} {m : List β}
    (h : List.Forall₂ (fun a b => g b = f a) l m) : m.map g = l.map f := by
  induction h with
  | nil => rfl
  | cons hab _ ih => rw [List.map_cons, List.map_cons, hab, ih]

theorem all_of_forall₂ {p : α → Bool} {q : β → Bool} {l : List α} {m : List β}
    (h : List.Forall₂ (fun a b => p a = true → q b = true) l m) (hl : l.all p = true) : m.all q = true := by
  induction h with
  | nil => rfl
  | cons hab _ ih =>
      rw [List.all_cons, Bool.and_eq_true] at hl ⊢
      exact ⟨hab hl.1, ih hl.2⟩

theorem exists_of_forall₂_right {R : α → β → Prop} {l : List α} {m : List β} (h : List.Forall₂ R l m)
    {b : β} (hb : b ∈ m) : ∃ a ∈ l, R a b := by
  induction h with
  | nil => exact absurd hb List.not_mem_nil
  | cons hab _ ih =>
      rcases List.mem_cons.mp hb with rfl | hb
      · exact ⟨_, List.mem_cons_self, hab⟩
      · obtain ⟨a, ha, hR⟩ := ih hb
        exact ⟨a, List.mem_cons_of_mem _ ha, hR⟩

theorem exists_of_forall₂_left {R : α → β → Prop} {l : List α} {m : List β} (h : List.Forall₂ R l m)
    {a : α} (ha : a ∈ l) : ∃ b ∈ m, R a b :=
  exists_of_forall₂_right h.flip ha

theorem forall₂_trans {R : α → β → Prop} {S : β → γ → Prop} {T : α → γ → Prop} {l : List α} {m : List β}
    {n : List γ} (hRS : ∀ a b c, R a b → S b c → T a c) (h : List.Forall₂ R l m)
    (h' : List.Forall₂ S m n) : List.Forall₂ T l n := by
  induction h generalizing n with
  | nil =>
      cases h'
      exact .nil
  | cons hab _ ih =>
      cases h' with
      | cons hbc hrest => exact .cons (hRS _ _ _ hab hbc) (ih hrest)

/-- Entries under the same keys in the same order, with related contents. -/
theorem forall₂_entries_iff {κ : Type} {R : α → β → Prop} {l : List (κ × α)} {m : List (κ × β)} :
    List.Forall₂ (fun a b => a.1 = b.1 ∧ R a.2 b.2) l m ↔
      l.map Prod.fst = m.map Prod.fst ∧ ∀ p ∈ l.zip m, R p.1.2 p.2.2 := by
  constructor
  · intro h
    refine ⟨(forall₂_map_eq (h.imp fun _ _ hab => hab.1.symm)).symm, fun p hp => ?_⟩
    exact (List.forall₂_zip h hp).2
  · rintro ⟨hkeys, h⟩
    have hfst : List.Forall₂ (fun (a : κ × α) (b : κ × β) => a.1 = b.1) l m := by
      rw [← List.forall₂_map_left_iff (f := Prod.fst) (R := fun k (b : κ × β) => k = b.1),
        ← List.forall₂_map_right_iff (f := Prod.fst) (R := Eq), List.forall₂_eq_eq_eq]
      exact hkeys
    rw [List.forall₂_iff_zip] at hfst ⊢
    exact ⟨hfst.1, fun hp => ⟨hfst.2 hp, h _ hp⟩⟩

theorem forall₂_entries_map_eq {κ : Type} {f : α → γ} {g : β → γ} {l : List (κ × α)} {m : List (κ × β)}
    (h : List.Forall₂ (fun a b => a.1 = b.1 ∧ f a.2 = g b.2) l m) :
    (l.map fun a => (a.1, f a.2)) = m.map fun b => (b.1, g b.2) :=
  (forall₂_map_eq (h.imp fun _ _ hab => Prod.ext hab.1.symm hab.2.symm)).symm

/-- Each entry of a list beside itself. -/
theorem forall₂_self (l : List α) : List.Forall₂ (fun a b => a ∈ l ∧ b = a) l l :=
  List.forall₂_same.mpr fun _ ha => ⟨ha, rfl⟩

/-- A list related to an append is an append of related lists. -/
theorem forall₂_append_left {R : α → β → Prop} {l₁ l₂ : List α} {m : List β}
    (h : List.Forall₂ R (l₁ ++ l₂) m) :
    ∃ m₁ m₂, m = m₁ ++ m₂ ∧ List.Forall₂ R l₁ m₁ ∧ List.Forall₂ R l₂ m₂ := by
  induction l₁ generalizing m with
  | nil => exact ⟨[], m, rfl, .nil, h⟩
  | cons a rest ih =>
      cases h with
      | cons hab hrest =>
          obtain ⟨m₁, m₂, rfl, h₁, h₂⟩ := ih hrest
          exact ⟨_ :: m₁, m₂, rfl, .cons hab h₁, h₂⟩

namespace Run

/-! ## One run -/

/-- **Postcondition.** Whatever supply from `base` on the run starts with, its result satisfies `post`. -/
def Ensures (base : Nat) (post : α → Prop) (run : Run α) : Prop :=
  ∀ next, base ≤ next → post (run.start next).result ∧ base ≤ (run.start next).next

namespace Ensures

variable {base : Nat}

theorem pure {post : α → Prop} {a : α} (h : post a) : Ensures base post (Pure.pure a) :=
  fun _ hn => ⟨h, hn⟩

theorem bind {mid : α → Prop} {post : β → Prop} {run : Run α} {f : α → Run β}
    (hrun : Ensures base mid run) (hf : ∀ a, mid a → Ensures base post (f a)) :
    Ensures base post (run >>= f) := by
  intro next hn
  obtain ⟨hmid, hn'⟩ := hrun next hn
  exact hf _ hmid _ hn'

theorem log (event : Event) : Ensures base (fun _ => True) (Run.log event) := fun _ hn => ⟨trivial, hn⟩

theorem fresh : Ensures base (fun id => base ≤ id) Run.fresh :=
  fun _ hn => ⟨hn, Nat.le_succ_of_le hn⟩

/-- A postcondition may be weakened. -/
theorem mono {post post' : α → Prop} {run : Run α} (h : Ensures base post run)
    (hpost : ∀ a, post a → post' a) : Ensures base post' run :=
  fun next hn => ⟨hpost _ (h next hn).1, (h next hn).2⟩

theorem and {post post' : α → Prop} {run : Run α} (h : Ensures base post run)
    (h' : Ensures base post' run) : Ensures base (fun a => post a ∧ post' a) run :=
  fun next hn => ⟨⟨(h next hn).1, (h' next hn).1⟩, (h next hn).2⟩

theorem map {post : β → Prop} {run : Run α} {f : α → β} (h : Ensures base (fun a => post (f a)) run) :
    Ensures base post (f <$> run) := by
  rw [map_eq_pure_bind]
  exact bind h fun _ ha => pure ha

/-- **One after another.** Each result of a `mapM` satisfies what its own input ensures. -/
theorem mapM {R : α → β → Prop} {f : α → Run β} {l : List α} (h : ∀ a ∈ l, Ensures base (R a) (f a)) :
    Ensures base (List.Forall₂ R l) (l.mapM f) := by
  induction l with
  | nil => exact pure .nil
  | cons a rest ih =>
      rw [List.mapM_cons]
      refine bind (h a List.mem_cons_self) fun b hb => ?_
      refine bind (ih fun x hx => h x (List.mem_cons_of_mem a hx)) fun bs hbs => ?_
      exact pure (.cons hb hbs)

end Ensures

/-! ## Two runs -/

/-- **Agreement.** From one supply, both runs yield related results and leave the same supply. -/
def Agree (same : α → β → Prop) (r : Run α) (s : Run β) : Prop :=
  ∀ next, same (r.start next).result (s.start next).result ∧ (r.start next).next = (s.start next).next

namespace Agree

theorem refl {same : α → α → Prop} (hsame : ∀ a, same a a) (r : Run α) : Agree same r r :=
  fun _ => ⟨hsame _, rfl⟩

theorem pure {same : α → β → Prop} {a : α} {b : β} (h : same a b) :
    Agree same (Pure.pure a) (Pure.pure b) :=
  fun _ => ⟨h, rfl⟩

/-- What is logged plays no part. -/
theorem log (event event' : Event) : Agree Eq (Run.log event) (Run.log event') := fun _ => ⟨rfl, rfl⟩

theorem bind {mid : α → β → Prop} {same : γ → δ → Prop} {r : Run α} {s : Run β} {f : α → Run γ}
    {g : β → Run δ} (hr : Agree mid r s) (hf : ∀ a b, mid a b → Agree same (f a) (g b)) :
    Agree same (r >>= f) (s >>= g) := by
  intro next
  obtain ⟨hmid, hnext⟩ := hr next
  rw [start_bind, start_bind, ← hnext]
  exact hf _ _ hmid _

theorem mono {same same' : α → β → Prop} {r : Run α} {s : Run β} (h : Agree same r s)
    (hsame : ∀ a b, same a b → same' a b) : Agree same' r s :=
  fun next => ⟨hsame _ _ (h next).1, (h next).2⟩

theorem map {same : γ → δ → Prop} {r : Run α} {s : Run β} {f : α → γ} {g : β → δ}
    (h : Agree (fun a b => same (f a) (g b)) r s) : Agree same (f <$> r) (g <$> s) := by
  rw [map_eq_pure_bind, map_eq_pure_bind]
  exact bind h fun _ _ hab => pure hab

/-- Runs that agree input by input agree on the whole lists. -/
theorem mapM {S : α → β → Prop} {same : γ → δ → Prop} {f : α → Run γ} {g : β → Run δ} {l : List α}
    {l' : List β} (hl : List.Forall₂ S l l') (hf : ∀ a b, S a b → Agree same (f a) (g b)) :
    Agree (List.Forall₂ same) (l.mapM f) (l'.mapM g) := by
  induction hl with
  | nil => exact pure .nil
  | cons hab _ ih =>
      rw [List.mapM_cons, List.mapM_cons]
      refine bind (hf _ _ hab) fun c d hcd => ?_
      refine bind ih fun cs ds hcds => ?_
      exact pure (.cons hcd hcds)

/-- What one of two agreeing runs ensures, the other one ensures too. -/
theorem ensures {base : Nat} {same : α → β → Prop} {post : α → Prop} {post' : β → Prop} {r : Run α}
    {s : Run β} (h : Agree same r s) (hr : Ensures base post r)
    (hpost : ∀ a b, same a b → post a → post' b) : Ensures base post' s := by
  intro next hn
  obtain ⟨hsame, hnext⟩ := h next
  obtain ⟨ha, hn'⟩ := hr next hn
  exact ⟨hpost _ _ hsame ha, hnext ▸ hn'⟩

end Agree

/-! ## Two runs from two supplies -/

/-- **Coincidence.** Whatever supplies the two runs start from, their results are related. -/
def Coincide (same : α → β → Prop) (r : Run α) (s : Run β) : Prop :=
  ∀ next next', same (r.start next).result (s.start next').result

namespace Coincide

theorem pure {same : α → β → Prop} {a : α} {b : β} (h : same a b) :
    Coincide same (Pure.pure a) (Pure.pure b) :=
  fun _ _ => h

theorem bind {mid : α → β → Prop} {same : γ → δ → Prop} {r : Run α} {s : Run β} {f : α → Run γ}
    {g : β → Run δ} (hr : Coincide mid r s) (hf : ∀ a b, mid a b → Coincide same (f a) (g b)) :
    Coincide same (r >>= f) (s >>= g) :=
  fun next next' => hf _ _ (hr next next') _ _

theorem map {same : γ → δ → Prop} {r : Run α} {s : Run β} {f : α → γ} {g : β → δ}
    (h : Coincide (fun a b => same (f a) (g b)) r s) : Coincide same (f <$> r) (g <$> s) := by
  rw [map_eq_pure_bind, map_eq_pure_bind]
  exact bind h fun _ _ hab => pure hab

/-- Two runs may be followed by others that have nothing to do with the results. -/
theorem after {same : γ → δ → Prop} {r : Run α} {s : Run β} {r' : Run γ} {s' : Run δ}
    (h : Coincide same r' s') : Coincide same (r >>= fun _ => r') (s >>= fun _ => s') :=
  fun _ _ => h _ _

/-- What each of the two runs ensures by itself can be used for their results. -/
theorem and {same : α → β → Prop} {post : α → Prop} {post' : β → Prop} {r : Run α} {s : Run β}
    (h : Coincide same r s) (hr : Ensures 0 post r) (hs : Ensures 0 post' s) :
    Coincide (fun a b => same a b ∧ post a ∧ post' b) r s :=
  fun next next' => ⟨h next next', (hr next (Nat.zero_le next)).1, (hs next' (Nat.zero_le next')).1⟩

/-- Runs that coincide on each input coincide on the whole list. -/
theorem mapM {same : β → γ → Prop} {f : α → Run β} {g : α → Run γ} {l : List α}
    (h : ∀ a ∈ l, Coincide same (f a) (g a)) : Coincide (List.Forall₂ same) (l.mapM f) (l.mapM g) := by
  induction l with
  | nil => exact pure .nil
  | cons a rest ih =>
      rw [List.mapM_cons, List.mapM_cons]
      refine bind (h a List.mem_cons_self) fun b c hbc => ?_
      refine bind (ih fun x hx => h x (List.mem_cons_of_mem a hx)) fun bs cs hbcs => ?_
      exact pure (.cons hbc hbcs)

end Coincide

/-! ## Two runs from two supplies of fresh identities -/

/-- **Yield.** From some supply that starts at `base` or later, the result of the run is `a`. -/
def Yields (base : Nat) (run : Run α) (a : α) : Prop := ∃ next, base ≤ next ∧ (run.start next).result = a

theorem Ensures.yields {base : Nat} {post : α → Prop} {run : Run α} (h : Ensures base post run) :
    Ensures base (Yields base run) run :=
  fun next hn => ⟨⟨next, hn, rfl⟩, (h next hn).2⟩

/-- **Coincidence from `base` on.** Whatever supplies from `base` on the two runs start from, their results are
    related, and the supplies that they leave start at `base` or later. -/
def CoincideFrom (base : Nat) (same : α → β → Prop) (r : Run α) (s : Run β) : Prop :=
  ∀ next next', base ≤ next → base ≤ next' →
    same (r.start next).result (s.start next').result ∧ base ≤ (r.start next).next ∧ base ≤ (s.start next').next

namespace CoincideFrom

variable {base : Nat}

theorem pure {same : α → β → Prop} {a : α} {b : β} (h : same a b) :
    CoincideFrom base same (Pure.pure a) (Pure.pure b) :=
  fun _ _ hn hn' => ⟨h, hn, hn'⟩

theorem log (event event' : Event) :
    CoincideFrom base (fun _ _ => True) (Run.log event) (Run.log event') :=
  fun _ _ hn hn' => ⟨trivial, hn, hn'⟩

theorem bind {mid : α → β → Prop} {same : γ → δ → Prop} {r : Run α} {s : Run β} {f : α → Run γ}
    {g : β → Run δ} (hr : CoincideFrom base mid r s)
    (hf : ∀ a b, mid a b → CoincideFrom base same (f a) (g b)) :
    CoincideFrom base same (r >>= f) (s >>= g) := by
  intro next next' hn hn'
  obtain ⟨hmid, hbase, hbase'⟩ := hr next next' hn hn'
  exact hf _ _ hmid _ _ hbase hbase'

theorem mono {same same' : α → β → Prop} {r : Run α} {s : Run β} (h : CoincideFrom base same r s)
    (hsame : ∀ a b, same a b → same' a b) : CoincideFrom base same' r s :=
  fun next next' hn hn' => ⟨hsame _ _ (h next next' hn hn').1, (h next next' hn hn').2⟩

theorem map {same : γ → δ → Prop} {r : Run α} {s : Run β} {f : α → γ} {g : β → δ}
    (h : CoincideFrom base (fun a b => same (f a) (g b)) r s) :
    CoincideFrom base same (f <$> r) (g <$> s) := by
  rw [map_eq_pure_bind, map_eq_pure_bind]
  exact bind h fun _ _ hab => pure hab

/-- Two runs coincide if what one ensures is related to all that the other ensures. -/
theorem of_ensures {same : α → β → Prop} {post : α → Prop} {post' : β → Prop} {r : Run α} {s : Run β}
    (hr : Ensures base post r) (hs : Ensures base post' s) (h : ∀ a b, post a → post' b → same a b) :
    CoincideFrom base same r s :=
  fun next next' hn hn' =>
    ⟨h _ _ (hr next hn).1 (hs next' hn').1, (hr next hn).2, (hs next' hn').2⟩

theorem left {same : α → β → Prop} {r : Run α} {s : Run β} (h : CoincideFrom base same r s) :
    Ensures base (fun _ => True) r :=
  fun next hn => ⟨trivial, (h next base hn (Nat.le_refl base)).2.1⟩

theorem right {same : α → β → Prop} {r : Run α} {s : Run β} (h : CoincideFrom base same r s) :
    Ensures base (fun _ => True) s :=
  fun next hn => ⟨trivial, (h base next (Nat.le_refl base) hn).2.2⟩

/-- Any result of the one run is related to any result of the other. -/
theorem of_yields {same : α → β → Prop} {r : Run α} {s : Run β} (h : CoincideFrom base same r s) {a : α}
    {b : β} (ha : Yields base r a) (hb : Yields base s b) : same a b := by
  obtain ⟨next, hn, rfl⟩ := ha
  obtain ⟨next', hn', rfl⟩ := hb
  exact (h next next' hn hn').1

/-- Runs that coincide input by input coincide on the whole lists. -/
theorem mapM {S : α → β → Prop} {same : γ → δ → Prop} {f : α → Run γ} {g : β → Run δ} {l : List α}
    {l' : List β} (hl : List.Forall₂ S l l') (hf : ∀ a b, S a b → CoincideFrom base same (f a) (g b)) :
    CoincideFrom base (List.Forall₂ same) (l.mapM f) (l'.mapM g) := by
  induction hl with
  | nil => exact pure .nil
  | cons hab _ ih =>
      rw [List.mapM_cons, List.mapM_cons]
      refine bind (hf _ _ hab) fun c d hcd => ?_
      refine bind ih fun cs ds hcds => ?_
      exact pure (.cons hcd hcds)

end CoincideFrom

end Run

end ConfigSchema
