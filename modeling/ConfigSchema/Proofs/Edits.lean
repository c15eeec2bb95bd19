import Mathlib.Order.Bounds.Basic

/-!
# `Edits` — the fewest edits that lead from one word to another

The distance of two words obeys a recurrence that only ever looks at their first characters (`fewest`). An edit may
change a word anywhere, though, and a chain of edits may touch the same character several times. This module shows
that nothing is gained by that: the recurrence yields the length of a shortest chain of edits that turns one word into
the other (`fewest_isLeast`).

* A chain of that length exists, since each branch of the recurrence is one edit or none, in front of a chain for
  the rest of the words (`edits_fewest`).
* No chain is shorter, since one edit brings a word closer to any other by one at most (`fewest_le_of_edit`).

What is asked of a distance is read off the chains, which can be reversed and joined. As to how `editDistance` computes
it, see `Proofs.Distance`.
-/

namespace ConfigSchema

variable {α : Type} {a b c : List α} {m n : Nat}

/-! ## Edits and chains of edits -/

/-- **One edit.** Somewhere in the word a character is inserted, deleted or replaced. -/
inductive Edit : List α → List α → Prop
  | insert (front back : List α) (x : α) : Edit (front ++ back) (front ++ x :: back)
  | delete (front back : List α) (x : α) : Edit (front ++ x :: back) (front ++ back)
  | replace (front back : List α) (x y : α) : Edit (front ++ x :: back) (front ++ y :: back)

/-- **A chain of edits**, of the given length, from one word to another. -/
inductive Edits : Nat → List α → List α → Prop
  | nil (a : List α) : Edits 0 a a
  | cons {n : Nat} {a b c : List α} (h : Edit a b) (rest : Edits n b c) : Edits (n + 1) a c

namespace Edit

theorem symm (h : Edit a b) : Edit b a := by
  cases h with
  | insert front back x => exact .delete front back x
  | delete front back x => exact .insert front back x
  | replace front back x y => exact .replace front back y x

/-- An edit may as well be made behind one more character. -/
theorem behind (x : α) (h : Edit a b) : Edit (x :: a) (x :: b) := by
  cases h with
  | insert front back y => exact .insert (x :: front) back y
  | delete front back y => exact .delete (x :: front) back y
  | replace front back y z => exact .replace (x :: front) back y z

/-- Edits do not care in which direction a word is read. -/
theorem reverse (h : Edit a b) : Edit a.reverse b.reverse := by
  have hsplit : ∀ (front back : List α) (x : α),
      (front ++ x :: back).reverse = back.reverse ++ x :: front.reverse := by simp
  cases h with
  | insert front back x =>
      rw [hsplit, List.reverse_append]
      exact .insert back.reverse front.reverse x
  | delete front back x =>
      rw [hsplit, List.reverse_append]
      exact .delete back.reverse front.reverse x
  | replace front back x y =>
      rw [hsplit, hsplit]
      exact .replace back.reverse front.reverse x y

theorem length_le (h : Edit a b) : b.length ≤ a.length + 1 := by
  cases h <;> simp only [List.length_append, List.length_cons] <;> omega

end Edit

namespace Edits

theorem single (h : Edit a b) : Edits 1 a b := .cons h (.nil b)

theorem trans (h : Edits m a b) (h' : Edits n b c) : Edits (m + n) a c := by
  induction h with
  | nil => rwa [Nat.zero_add]
  | cons hedit _ ih =>
      rw [Nat.succ_add_eq_add_succ]
      exact .cons hedit (ih h')

theorem symm (h : Edits n a b) : Edits n b a := by
  induction h with
  | nil a => exact .nil a
  | cons hedit _ ih => exact ih.trans (single hedit.symm)

theorem behind (x : α) (h : Edits n a b) : Edits n (x :: a) (x :: b) := by
  induction h with
  | nil a => exact .nil (x :: a)
  | cons hedit _ ih => exact .cons (hedit.behind x) ih

theorem reverse (h : Edits n a b) : Edits n a.reverse b.reverse := by
  induction h with
  | nil a => exact .nil a.reverse
  | cons hedit _ ih => exact .cons hedit.reverse ih

theorem eq_of_zero (h : Edits 0 a b) : a = b := by
  cases h
  rfl

theorem length_le (h : Edits n a b) : b.length ≤ a.length + n := by
  induction h with
  | nil => exact Nat.le_refl _
  | cons hedit _ ih =>
      have hstep := hedit.length_le
      omega

/-- A word is written character by character. -/
theorem write (b : List α) : Edits b.length [] b := by
  induction b with
  | nil => exact .nil []
  | cons y b ih => exact ih.trans (single (.insert [] b y))

end Edits

/-! ## The recurrence -/

namespace EditDistance

variable [DecidableEq α]

/-- The fewest edits, by a recurrence. Against `y :: b` the word `x :: a` is changed by deleting `x`, by inserting `y`,
    or by making `x` into `y`, whichever is cheapest. -/
def fewest : List α → List α → Nat
  | [], b => b.length
  | x :: a, [] => (x :: a).length
  | x :: a, y :: b =>
      min (min (fewest a (y :: b) + 1) (fewest (x :: a) b + 1)) (fewest a b + if x = y then 0 else 1)

theorem fewest_nil_left (b : List α) : fewest [] b = b.length := by rw [fewest]

theorem fewest_nil_right (a : List α) : fewest a [] = a.length := by
  cases a with
  | nil => exact fewest_nil_left []
  | cons x a => rw [fewest]

theorem fewest_cons_cons (x : α) (a : List α) (y : α) (b : List α) :
    fewest (x :: a) (y :: b) =
      min (min (fewest a (y :: b) + 1) (fewest (x :: a) b + 1)) (fewest a b + if x = y then 0 else 1) := by
  rw [fewest]

/-- The branch of the recurrence that is the cheapest. -/
theorem fewest_cons_cons_cases (x : α) (a : List α) (y : α) (b : List α) :
    fewest (x :: a) (y :: b) = fewest a (y :: b) + 1 ∨ fewest (x :: a) (y :: b) = fewest (x :: a) b + 1 ∨
      fewest (x :: a) (y :: b) = fewest a b + if x = y then 0 else 1 := by
  rw [fewest_cons_cons]
  omega

/-- Whatever is the cheapest, no branch of the recurrence is cheaper than what it yields. -/
theorem fewest_cons_cons_le (x : α) (a : List α) (y : α) (b : List α) :
    fewest (x :: a) (y :: b) ≤ fewest a (y :: b) + 1 ∧ fewest (x :: a) (y :: b) ≤ fewest (x :: a) b + 1 ∧
      fewest (x :: a) (y :: b) ≤ fewest a b + if x = y then 0 else 1 := by
  rw [fewest_cons_cons]
  omega

theorem fewest_self (a : List α) : fewest a a = 0 := by
  induction a with
  | nil => exact fewest_nil_left []
  | cons x a ih =>
      have hsame := (fewest_cons_cons_le x a x a).2.2
      rw [if_pos rfl, ih] at hsame
      exact Nat.le_zero.mp hsame

/-! ### A chain of that length -/

/-- **There is a chain of that length.** Each branch of the recurrence makes one edit at the front, or none if the
    characters there are equal. -/
theorem edits_fewest (a b : List α) : Edits (fewest a b) a b := by
  induction a generalizing b with
  | nil =>
      rw [fewest_nil_left]
      exact .write b
  | cons x a iha =>
      induction b with
      | nil =>
          rw [fewest_nil_right]
          exact (Edits.write (x :: a)).symm
      | cons y b ihb =>
          rcases fewest_cons_cons_cases x a y b with h | h | h
          · rw [h]
            exact .cons (.delete [] a x) (iha (y :: b))
          · rw [h]
            exact ihb.trans (.single (.insert [] b y))
          · rw [h]
            by_cases hxy : x = y
            · subst hxy
              rw [if_pos rfl]
              exact (iha b).behind x
            · rw [if_neg hxy]
              exact .cons (.replace [] a x y) ((iha b).behind y)

/-! ### No shorter chain -/

theorem fewest_insert_le (a : List α) (y : α) (b : List α) : fewest a (y :: b) ≤ fewest a b + 1 := by
  cases a with
  | nil => rw [fewest_nil_left, fewest_nil_left, List.length_cons]
  | cons x a => exact (fewest_cons_cons_le x a y b).2.1

theorem fewest_delete_le (x : α) (a b : List α) : fewest (x :: a) b ≤ fewest a b + 1 := by
  cases b with
  | nil => rw [fewest_nil_right, fewest_nil_right, List.length_cons]
  | cons y b => exact (fewest_cons_cons_le x a y b).1

/-- A word is not much farther away than what it becomes behind one more character. -/
theorem fewest_le_delete (x : α) (a b : List α) : fewest a b ≤ fewest (x :: a) b + 1 := by
  induction b with
  | nil =>
      rw [fewest_nil_right, fewest_nil_right, List.length_cons]
      omega
  | cons y b ih =>
      have hinsert := fewest_insert_le a y b
      rcases fewest_cons_cons_cases x a y b with h | h | h
      · omega
      · omega
      · omega

/-- Words that begin with `x` and `y`, and go on with `a` and `b`. If `a` is farther away than `b` by one at most,
    then so are the whole words, provided that it holds with the costs of matching `x` and `y` added. -/
theorem fewest_cons_le {x y : α} (hrest : ∀ c, fewest a c ≤ fewest b c + 1)
    (hmatch : ∀ z c, fewest a c + (if x = z then 0 else 1) ≤ fewest b c + (if y = z then 0 else 1) + 1)
    (c : List α) : fewest (x :: a) c ≤ fewest (y :: b) c + 1 := by
  induction c with
  | nil =>
      have hlength := hrest []
      rw [fewest_nil_right, fewest_nil_right] at hlength ⊢
      rw [List.length_cons, List.length_cons]
      omega
  | cons z c ih =>
      -- Whatever branch the one word takes, the other one could take it as well.
      obtain ⟨hdelete, hinsert, hreplace⟩ := fewest_cons_cons_le x a z c
      rcases fewest_cons_cons_cases y b z c with h | h | h
      · have hshorter := hrest (z :: c)
        omega
      · omega
      · have hfront := hmatch z c
        omega

/-- A common front of two words may be ignored. -/
theorem fewest_append_le (front : List α) (h : ∀ c, fewest a c ≤ fewest b c + 1) (c : List α) :
    fewest (front ++ a) c ≤ fewest (front ++ b) c + 1 := by
  induction front generalizing c with
  | nil => exact h c
  | cons x front ih =>
      refine fewest_cons_le ih (fun z d => ?_) c
      have hd := ih d
      omega

/-- **One edit brings a word closer to any other by one at most.** -/
theorem fewest_le_of_edit (h : Edit a b) (c : List α) : fewest a c ≤ fewest b c + 1 := by
  cases h with
  | insert front back x => exact fewest_append_le front (fewest_le_delete x back) c
  | delete front back x => exact fewest_append_le front (fewest_delete_le x back) c
  | replace front back x y =>
      refine fewest_append_le front (fun d => ?_) c
      refine fewest_cons_le (fun d => Nat.le_succ _) (fun z d => ?_) d
      split_ifs <;> omega

theorem fewest_le_of_edits (h : Edits n a b) : fewest a b ≤ n := by
  induction h with
  | nil a => rw [fewest_self]
  | @cons n a b c hedit _ ih =>
      have hstep := fewest_le_of_edit hedit c
      omega

/-- **The recurrence yields the least number of edits** that turn the one word into the other. -/
theorem fewest_isLeast (a b : List α) : IsLeast {n | Edits n a b} (fewest a b) :=
  ⟨edits_fewest a b, fun _ h => fewest_le_of_edits h⟩

/-! ## What chains show of the distance -/

theorem fewest_reverse (a b : List α) : fewest a.reverse b.reverse = fewest a b := by
  refine Nat.le_antisymm (fewest_le_of_edits (edits_fewest a b).reverse) (fewest_le_of_edits ?_)
  have hback := (edits_fewest a.reverse b.reverse).reverse
  rwa [List.reverse_reverse, List.reverse_reverse] at hback

theorem fewest_comm (a b : List α) : fewest a b = fewest b a :=
  Nat.le_antisymm (fewest_le_of_edits (edits_fewest b a).symm) (fewest_le_of_edits (edits_fewest a b).symm)

theorem fewest_eq_zero_iff : fewest a b = 0 ↔ a = b := by
  constructor
  · intro h
    have hchain := edits_fewest a b
    rw [h] at hchain
    exact hchain.eq_of_zero
  · rintro rfl
    exact fewest_self a

theorem fewest_triangle (a b c : List α) : fewest a c ≤ fewest a b + fewest b c :=
  fewest_le_of_edits ((edits_fewest a b).trans (edits_fewest b c))

theorem length_le_fewest (a b : List α) : b.length ≤ a.length + fewest a b := (edits_fewest a b).length_le

/-- The characters can be replaced one by one, and the longer word has some more. -/
theorem fewest_le_max (a b : List α) : fewest a b ≤ max a.length b.length := by
  induction a generalizing b with
  | nil =>
      rw [fewest_nil_left]
      exact Nat.le_max_right _ _
  | cons x a ih =>
      cases b with
      | nil =>
          rw [fewest_nil_right]
          exact Nat.le_max_left _ _
      | cons y b =>
          have hmatch := (fewest_cons_cons_le x a y b).2.2
          have hrest := ih b
          rw [List.length_cons, List.length_cons]
          split_ifs at hmatch <;> omega

end EditDistance

end ConfigSchema
