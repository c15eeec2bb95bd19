import Mathlib.Data.List.Sort
import ConfigSchema.Proofs.Distance
import ConfigSchema.Suggestion

/-!
# `Suggestion.IsNearest` — which candidates are suggested

A candidate is suggested if no other one is closer to the word, unless even the closest ones are out of reach, more than
five edits away (`IsNearest`). The suggestions are computed from the distinct candidates and the least of their
distances. Here they are shown to be the nearest candidates, each of them once, and in the order in which they first
occur; no other list is that (`eq_closest_iff`). As only equal words have no distance, a word that is itself a candidate
is its only suggestion.
-/

namespace ConfigSchema

/-! ## First occurrences -/

section FirstOccurrences

variable {α : Type} [DecidableEq α]

/-- Dropping other elements keeps the order of first occurrences. -/
theorem idxOf_lt_of_idxOf_filter_lt {p : α → Bool} {x y : α} (hx : p x = true) (hy : p y = true) {l : List α}
    (h : (l.filter p).idxOf x < (l.filter p).idxOf y) : l.idxOf x < l.idxOf y := by
  induction l with
  | nil => exact h
  | cons z l ih =>
      by_cases hz : p z = true
      · rw [List.filter_cons_of_pos hz] at h
        by_cases hzy : z = y
        · rw [List.idxOf_cons_eq _ hzy] at h
          exact absurd h (Nat.not_lt_zero _)
        · rw [List.idxOf_cons_ne _ hzy] at h ⊢
          by_cases hzx : z = x
          · rw [List.idxOf_cons_eq _ hzx]
            exact Nat.succ_pos _
          · rw [List.idxOf_cons_ne _ hzx] at h ⊢
            exact Nat.succ_lt_succ (ih (Nat.lt_of_succ_lt_succ h))
      · have hzx : z ≠ x := fun e => hz (e ▸ hx)
        have hzy : z ≠ y := fun e => hz (e ▸ hy)
        rw [List.filter_cons_of_neg hz] at h
        rw [List.idxOf_cons_ne _ hzx, List.idxOf_cons_ne _ hzy]
        exact Nat.succ_lt_succ (ih h)

/-- Without its repetitions, a list is in the order of first occurrences. -/
theorem pairwise_eraseDups (l : List α) : l.eraseDups.Pairwise fun x y => l.idxOf x < l.idxOf y := by
  generalize hn : l.length = n
  induction n using Nat.strong_induction_on generalizing l with
  | h n ih =>
    cases l with
    | nil => exact List.Pairwise.nil
    | cons z l =>
        have hshorter : (l.filter fun x => !x == z).length < n := by
          have hle := List.length_filter_le (fun x => !x == z) l
          rw [← hn, List.length_cons]
          omega
        have hne : ∀ x ∈ (l.filter fun x => !x == z).eraseDups, z ≠ x ∧ (!x == z) = true := by
          intro x hx
          have hkept := (List.mem_filter.mp (List.mem_eraseDups.mp hx)).2
          exact ⟨fun e => by simp [e] at hkept, hkept⟩
        rw [List.eraseDups_cons, List.pairwise_cons]
        refine ⟨fun x hx => ?_, ?_⟩
        · rw [List.idxOf_cons_self, List.idxOf_cons_ne _ (hne x hx).1]
          exact Nat.succ_pos _
        · refine (ih _ hshorter _ rfl).imp_of_mem fun {x y} hx hy hlt => ?_
          rw [List.idxOf_cons_ne _ (hne x hx).1, List.idxOf_cons_ne _ (hne y hy).1]
          exact Nat.succ_lt_succ (idxOf_lt_of_idxOf_filter_lt (p := fun x => !x == z) (hne x hx).2 (hne y hy).2 hlt)

end FirstOccurrences

namespace Suggestion

variable {word name : String} {candidates : List String}

/-- **A nearest candidate**: none is closer to the word, and it is within reach, at most five edits away. -/
def IsNearest (word : String) (candidates : List String) (name : String) : Prop :=
  name ∈ candidates ∧ (∀ c ∈ candidates, editDistance word name ≤ editDistance word c) ∧
    editDistance word name ≤ 5

instance : Decidable (IsNearest word candidates name) :=
  inferInstanceAs (Decidable (_ ∧ (∀ c ∈ candidates, editDistance word name ≤ editDistance word c) ∧ _))

/-- The least distance of the distinct candidates is that of all. -/
theorem min?_distances_eq_some_iff {least : Nat} :
    (candidates.eraseDups.map (editDistance word)).min? = some least ↔
      (∃ c ∈ candidates, editDistance word c = least) ∧ ∀ c ∈ candidates, least ≤ editDistance word c := by
  rw [List.min?_eq_some_iff]
  simp only [List.mem_map, List.mem_eraseDups, forall_exists_index, and_imp, forall_apply_eq_imp_iff₂]

/-- Among the distinct candidates, those at the least distance are the nearest ones if that is within reach. -/
theorem isNearest_iff_of_min? {least : Nat}
    (h : (candidates.eraseDups.map (editDistance word)).min? = some least) :
    IsNearest word candidates name ↔ name ∈ candidates ∧ editDistance word name = least ∧ least ≤ 5 := by
  obtain ⟨⟨c, hc, hleast⟩, hmin⟩ := min?_distances_eq_some_iff.mp h
  constructor
  · rintro ⟨hname, hnearest, hreach⟩
    have heq : editDistance word name = least := Nat.le_antisymm (hleast ▸ hnearest c hc) (hmin name hname)
    exact ⟨hname, heq, heq ▸ hreach⟩
  · rintro ⟨hname, rfl, hreach⟩
    exact ⟨hname, hmin, hreach⟩

theorem closest_eq_filter (word : String) (candidates : List String) :
    closest word candidates = candidates.eraseDups.filter fun c => IsNearest word candidates c := by
  cases hleast : (candidates.eraseDups.map (editDistance word)).min? with
  | none =>
      simp only [closest, hleast]
      rw [List.min?_eq_none_iff, List.map_eq_nil_iff] at hleast
      rw [hleast, List.filter_nil]
  | some least =>
      have hnearest : ∀ c ∈ candidates.eraseDups,
          IsNearest word candidates c ↔ editDistance word c = least ∧ least ≤ 5 := by
        intro c hc
        rw [isNearest_iff_of_min? hleast, and_iff_right (List.mem_eraseDups.mp hc)]
      simp only [closest, hleast]
      split
      · next hreach =>
          refine List.filter_congr fun c hc => ?_
          rw [decide_eq_decide, hnearest c hc, and_iff_left (show least ≤ 5 from hreach)]
      · next hreach =>
          symm
          rw [List.filter_eq_nil_iff]
          intro c hc
          rw [decide_eq_true_eq, hnearest c hc]
          exact fun h => hreach h.2

theorem mem_closest_iff : name ∈ closest word candidates ↔ IsNearest word candidates name := by
  rw [closest_eq_filter, List.mem_filter, List.mem_eraseDups, decide_eq_true_eq]
  exact and_iff_right_of_imp fun h => h.1

theorem pairwise_closest (word : String) (candidates : List String) :
    (closest word candidates).Pairwise fun c d => candidates.idxOf c < candidates.idxOf d := by
  rw [closest_eq_filter]
  exact (pairwise_eraseDups candidates).filter _

/-- Some candidate is nearest, unless all are out of reach. -/
theorem exists_isNearest_iff :
    (∃ name, IsNearest word candidates name) ↔ ∃ c ∈ candidates, editDistance word c ≤ 5 := by
  constructor
  · rintro ⟨name, hname, -, hreach⟩
    exact ⟨name, hname, hreach⟩
  · rintro ⟨c, hc, hreach⟩
    have hsome : (candidates.eraseDups.map (editDistance word)).min?.isSome :=
      List.isSome_min?_of_mem (List.mem_map_of_mem (List.mem_eraseDups.mpr hc))
    obtain ⟨least, hleast⟩ := Option.isSome_iff_exists.mp hsome
    obtain ⟨⟨name, hname, rfl⟩, hmin⟩ := min?_distances_eq_some_iff.mp hleast
    exact ⟨name, hname, hmin, Nat.le_trans (hmin c hc) hreach⟩

/-- A word that is a candidate is itself the only nearest one, for it alone is at no distance. -/
theorem isNearest_iff_of_mem (h : word ∈ candidates) : IsNearest word candidates name ↔ name = word := by
  have hself : editDistance word word = 0 := editDistance_eq_zero_iff.mpr rfl
  constructor
  · rintro ⟨-, hnearest, -⟩
    have hzero : editDistance word name = 0 := by
      have hle := hnearest word h
      rwa [hself, Nat.le_zero] at hle
    exact (editDistance_eq_zero_iff.mp hzero).symm
  · rintro rfl
    refine ⟨h, fun c _ => ?_, ?_⟩
    · rw [hself]
      exact Nat.zero_le _
    · rw [hself]
      exact Nat.zero_le _

/-- The suggestions are the only list of the nearest candidates in the order of their first occurrences. -/
theorem eq_closest_iff {names : List String} :
    names = closest word candidates ↔
      (∀ name, name ∈ names ↔ IsNearest word candidates name) ∧
        names.Pairwise fun c d => candidates.idxOf c < candidates.idxOf d := by
  constructor
  · rintro rfl
    exact ⟨fun name => mem_closest_iff, pairwise_closest word candidates⟩
  · rintro ⟨hmem, hpairwise⟩
    have : Std.Antisymm fun c d => candidates.idxOf c < candidates.idxOf d :=
      ⟨fun c d h h' => absurd h (Nat.lt_asymm h')⟩
    have : Std.Irrefl fun c d => candidates.idxOf c < candidates.idxOf d := ⟨fun c => Nat.lt_irrefl _⟩
    have hsame : ∀ name, name ∈ names ↔ name ∈ closest word candidates :=
      fun name => (hmem name).trans mem_closest_iff.symm
    exact hpairwise.eq_of_mem_iff (pairwise_closest word candidates) hsame

theorem closest_eq_nil_iff :
    closest word candidates = [] ↔ ¬ ∃ c ∈ candidates, editDistance word c ≤ 5 := by
  rw [← exists_isNearest_iff, List.eq_nil_iff_forall_not_mem, not_exists]
  simp only [mem_closest_iff]

/-- **The suggestions are exactly the nearest candidates**, each once and in the order of their first occurrences.
    So there are some if any candidate is at most five edits away, and a word that is itself a candidate is the only
    one. -/
theorem closest_exact (word : String) (candidates : List String) :
    (∀ names, names = closest word candidates ↔
      (∀ name, name ∈ names ↔ IsNearest word candidates name) ∧
        names.Pairwise fun c d => candidates.idxOf c < candidates.idxOf d) ∧
      (closest word candidates ≠ [] ↔ ∃ c ∈ candidates, editDistance word c ≤ 5) ∧
      (word ∈ candidates → closest word candidates = [word]) := by
  refine ⟨fun names => eq_closest_iff, ?_, fun hword => ?_⟩
  · rw [ne_eq, closest_eq_nil_iff, not_not]
  · symm
    refine eq_closest_iff.mpr ⟨fun name => ?_, List.pairwise_singleton _ word⟩
    rw [isNearest_iff_of_mem hword, List.mem_singleton]

/-- Of the two nearest candidates one is repeated; and a candidate has no other one near it. Five edits away is within
    reach, six is not. -/
theorem closest_exact_name :
    let candidates := ["value", "name", "me", "name"]
    closest "nme" candidates = ["name", "me"] ∧
      (∀ name, name ∈ ["name", "me"] ↔ IsNearest "nme" candidates name) ∧
      "me" ∈ candidates ∧ closest "me" candidates = ["me"] ∧
      editDistance "abcde" "vwxyz" = 5 ∧ closest "abcde" ["vwxyz"] = ["vwxyz"] ∧
      editDistance "abcdef" "uvwxyz" = 6 ∧ closest "abcdef" ["uvwxyz"] = [] := by
  intro candidates
  have hnearest : ["name", "me"] = closest "nme" candidates := by decide
  have hme : "me" ∈ candidates := by decide
  have hfive : editDistance "abcde" "vwxyz" = 5 := by decide
  have hsix : editDistance "abcdef" "uvwxyz" = 6 := by decide
  have hwithin : ["vwxyz"] = closest "abcde" ["vwxyz"] := by
    refine ((closest_exact "abcde" ["vwxyz"]).1 _).mpr ⟨fun name => ?_, List.pairwise_singleton _ _⟩
    rw [List.mem_singleton]
    constructor
    · rintro rfl
      exact ⟨List.mem_singleton_self _, by simp, Nat.le_of_eq hfive⟩
    · exact fun h => List.mem_singleton.mp h.1
  have hbeyond : closest "abcdef" ["uvwxyz"] = [] := by
    by_contra hsome
    obtain ⟨c, hc, hreach⟩ := (closest_exact "abcdef" ["uvwxyz"]).2.1.mp hsome
    rw [List.mem_singleton.mp hc, hsix] at hreach
    exact absurd hreach (by decide)
  exact ⟨hnearest.symm, (((closest_exact "nme" candidates).1 _).mp hnearest).1, hme,
    (closest_exact "me" candidates).2.2 hme, hfive, hwithin.symm, hsix, hbeyond⟩

end Suggestion

end ConfigSchema
