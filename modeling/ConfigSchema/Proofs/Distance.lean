import ConfigSchema.EditDistance
import ConfigSchema.Proofs.Edits

/-!
# `EditDistance.distance` — one row is enough

The distance is computed in a single row, which is overwritten from left to right. So while a character is taken in,
one part of the row counts that character already and the other part does not. This module shows that the row holds
what the recurrence yields for the prefixes of the words (`overwrite_entriesFrom`, `lastRow_eq`), and hence that the
distance is the least number of edits (`editDistance_isLeast`) and a metric (`editDistance_metric`).

The recurrence looks at the first characters of two words and the loops at the last ones of two prefixes. So the
prefixes are read backwards here: taking in a character is `List.cons`, and the invariant of either loop is an equation.
As edits do not care in which direction a word is read, the result is that for the words themselves.
-/

namespace ConfigSchema

namespace EditDistance

variable {α : Type} [DecidableEq α]

/-! ## The invariant of the loops -/

/-- What the recurrence yields for `p` and the prefixes of a word, of which `q` has been read and `b` comes next. Both
    `p` and `q` read backwards. -/
def entriesFrom (p q : List α) : List α → List Nat
  | [] => []
  | y :: b => fewest p (y :: q) :: entriesFrom p (y :: q) b

/-- The whole row: what the recurrence yields for `p`, backwards, and all prefixes of `b`. -/
def rowOf (p b : List α) : List Nat := fewest p [] :: entriesFrom p [] b

/-- **The inner loop.** As far as the row has been overwritten it is that of `x :: p`, and from there on that of `p`.
    The entry to the left is the last one of the former, and the diagonal is what it has replaced. -/
theorem overwrite_entriesFrom (x : α) (p q b : List α) :
    overwrite x b (fewest p q) (fewest (x :: p) q) (entriesFrom p q b) = entriesFrom (x :: p) q b := by
  induction b generalizing q with
  | nil => rfl
  | cons y b ih =>
      rw [entriesFrom, entriesFrom, overwrite, ← fewest_cons_cons, ih]

theorem nextRow_rowOf (x : α) (p b : List α) : nextRow b (rowOf p b) (x, p.length) = rowOf (x :: p) b := by
  have hfirst : p.length + 1 = fewest (x :: p) [] := by rw [fewest_nil_right, List.length_cons]
  rw [rowOf, nextRow, hfirst, overwrite_entriesFrom, rowOf]

/-- **The outer loop.** The row is that of the prefix of `a` that has been taken in. -/
theorem foldl_nextRow_rowOf (p a b : List α) :
    (a.zipIdx p.length).foldl (nextRow b) (rowOf p b) = rowOf (a.reverse ++ p) b := by
  induction a generalizing p with
  | nil => rfl
  | cons x a ih =>
      rw [List.zipIdx_cons, List.foldl_cons, nextRow_rowOf, ← List.length_cons, ih, List.reverse_cons,
        List.append_assoc, List.singleton_append]

theorem entriesFrom_nil_left (q b : List α) : entriesFrom [] q b = List.range' (q.length + 1) b.length := by
  induction b generalizing q with
  | nil => rfl
  | cons y b ih => rw [entriesFrom, fewest_nil_left, ih, List.length_cons, List.length_cons, List.range'_succ]

/-- The loops begin with the row of the empty word. -/
theorem rowOf_nil_left (b : List α) : rowOf [] b = List.range (b.length + 1) := by
  rw [rowOf, fewest_nil_left, entriesFrom_nil_left, List.range_eq_range', List.range'_succ]
  rfl

theorem lastRow_eq (a b : List α) : lastRow a b = rowOf a.reverse b := by
  have hloop := foldl_nextRow_rowOf [] a b
  rwa [rowOf_nil_left, List.append_nil] at hloop

/-! ## The distance -/

theorem getLastD_entriesFrom (p q b : List α) :
    (entriesFrom p q b).getLastD (fewest p q) = fewest p (b.reverse ++ q) := by
  induction b generalizing q with
  | nil => rfl
  | cons y b ih =>
      rw [entriesFrom, List.getLastD_cons, ih, List.reverse_cons, List.append_assoc, List.singleton_append]

/-- **The loops yield what the recurrence yields.** -/
theorem distance_eq_fewest (a b : List α) : distance a b = fewest a b := by
  cases a with
  | nil => exact (fewest_nil_left b).symm
  | cons x a =>
      have hlast : (rowOf (x :: a).reverse b).getLastD 0 = fewest (x :: a).reverse b.reverse := by
        rw [rowOf, List.getLastD_cons, getLastD_entriesFrom, List.append_nil]
      rw [← fewest_reverse, ← hlast, ← lastRow_eq]
      rfl

end EditDistance

open EditDistance

theorem editDistance_eq_fewest (a b : String) : editDistance a b = fewest a.toList b.toList :=
  distance_eq_fewest a.toList b.toList

theorem editDistance_eq_zero_iff {a b : String} : editDistance a b = 0 ↔ a = b := by
  rw [editDistance_eq_fewest, fewest_eq_zero_iff, String.toList_inj]

/-- **The distance of two texts is the least number of edits** that turn the one into the other. -/
theorem editDistance_isLeast (a b : String) : IsLeast {n | Edits n a.toList b.toList} (editDistance a b) := by
  rw [editDistance_eq_fewest]
  exact fewest_isLeast a.toList b.toList

example : editDistance "kitten" "sitting" = 3 := by decide

/-- **The distance of texts is a metric.** It is at least the difference of their lengths, and at most the length
    of the longer one. -/
theorem editDistance_metric (a b c : String) :
    editDistance a b = editDistance b a ∧ (editDistance a b = 0 ↔ a = b) ∧
      editDistance a c ≤ editDistance a b + editDistance b c ∧
      ((a.length : Int) - b.length).natAbs ≤ editDistance a b ∧
      editDistance a b ≤ max a.length b.length := by
  have hab := length_le_fewest a.toList b.toList
  have hba := length_le_fewest b.toList a.toList
  rw [fewest_comm b.toList a.toList] at hba
  refine ⟨?_, editDistance_eq_zero_iff, ?_, ?_, ?_⟩
  · rw [editDistance_eq_fewest, editDistance_eq_fewest]
    exact fewest_comm a.toList b.toList
  · rw [editDistance_eq_fewest, editDistance_eq_fewest, editDistance_eq_fewest]
    exact fewest_triangle a.toList b.toList c.toList
  · rw [editDistance_eq_fewest, ← String.length_toList, ← String.length_toList]
    omega
  · rw [editDistance_eq_fewest, ← String.length_toList, ← String.length_toList]
    exact fewest_le_max a.toList b.toList

end ConfigSchema
