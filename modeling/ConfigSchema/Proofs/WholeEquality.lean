import Mathlib.Algebra.Ring.Int.Defs
import Mathlib.Algebra.Ring.Nat
import Mathlib.Data.Nat.Log
import ConfigSchema.Proofs.Gives

/-!
# `Whole.RoundsAlike` — which whole numbers are equal

Two whole numbers that fit a signed 64-bit word are compared as integers. Where one of them does not fit, both are
rounded to doubles first, and so a number of `2⁶³` or more is equal to all its neighbours that round to the same
double. This module says which these are, without reference to the rounding program: from `2⁶³` on the doubles are
the multiples of 2048, and each number rounds to the nearest of them (`Nearest`, `nearest53_of_large`); below `2⁶³`
they are the multiples of 1024, so that only the last 512 numbers round up to `2⁶³` (`nearest53_of_edge`) and all
lower ones stay below it (`nearest53_lt`).

`equal_wholes_iff` puts this together. Equality is exact for every pair of numbers of which one is less than
`2⁶³ - 512`, or of which neither reaches `2⁶³`.
-/

namespace ConfigSchema

namespace Whole

/-! ## Rounding to a multiple -/

/-- **`q * unit` is the multiple of `unit` nearest to `n`.** Halfway between two multiples it is the even one. -/
structure Nearest (unit n q : Nat) : Prop where
  above : 2 * (q * unit) ≤ 2 * n + unit
  below : 2 * n ≤ 2 * (q * unit) + unit
  even : 2 * (q * unit) = 2 * n + unit ∨ 2 * n = 2 * (q * unit) + unit → q % 2 = 0

theorem Nearest.le {unit n q q' : Nat} (hunit : 0 < unit) (h : Nearest unit n q) (h' : Nearest unit n q') :
    q ≤ q' := by
  by_contra hlt
  have hstep : (q' + 1) * unit ≤ q * unit := Nat.mul_le_mul_right unit (by omega)
  have hsucc : (q' + 1) * unit = q' * unit + unit := Nat.succ_mul q' unit
  -- Then `n` lies halfway between the two, which are neighbours, and one of them is odd.
  have hup := h.above
  have hdown := h'.below
  have hmul : q * unit = (q' + 1) * unit := by omega
  have hneighbour : q = q' + 1 := Nat.eq_of_mul_eq_mul_right hunit hmul
  have heven := h.even (.inl (by omega))
  have heven' := h'.even (.inr (by omega))
  omega

theorem Nearest.unique {unit n q q' : Nat} (hunit : 0 < unit) (h : Nearest unit n q) (h' : Nearest unit n q') :
    q = q' :=
  Nat.le_antisymm (h.le hunit h') (h'.le hunit h)

/-! ## Rounding to 53 bits -/

/-- The distance of the multiples that a number is rounded to. -/
def unit53 (n : Nat) : Nat := Nat.pow 2 (n.log2 + 1 - 53)

/-- Rounding finds the nearest multiple. -/
theorem exists_nearest53_eq (n : Nat) : ∃ q, Nearest (unit53 n) n q ∧ nearest53 n = q * unit53 n := by
  have hunit : 0 < unit53 n := Nat.pow_pos (by decide)
  have hdiv : n / unit53 n * unit53 n + n % unit53 n = n := Nat.div_add_mod' n (unit53 n)
  have hmod : n % unit53 n < unit53 n := Nat.mod_lt n hunit
  refine ⟨_, ?_, rfl⟩
  change Nearest (unit53 n) n (if unit53 n < 2 * (n % unit53 n) ∨
    (2 * (n % unit53 n) = unit53 n ∧ n / unit53 n % 2 = 1) then n / unit53 n + 1 else n / unit53 n)
  split
  · have hsucc : (n / unit53 n + 1) * unit53 n = n / unit53 n * unit53 n + unit53 n := Nat.succ_mul _ _
    constructor <;> omega
  · constructor <;> omega

theorem unit53_eq {n k : Nat} (h : 2 ^ k ≤ n) (h' : n < 2 ^ (k + 1)) : unit53 n = Nat.pow 2 (k + 1 - 53) := by
  have hne : n ≠ 0 := Nat.ne_zero_of_lt (Nat.lt_of_lt_of_le (Nat.two_pow_pos k) h)
  have hlog : n.log2 = k := (Nat.log2_eq_iff hne).mpr ⟨h, h'⟩
  rw [unit53, hlog]

/-- From `2⁶³` on, a number rounds to the nearest multiple of 2048. -/
theorem nearest53_of_large {n : Nat} (h : 2 ^ 63 ≤ n) (h' : n < 2 ^ 64) :
    ∃ q, Nearest 2048 n q ∧ nearest53 n = q * 2048 := by
  have hunit : unit53 n = 2048 := unit53_eq h h'
  exact hunit ▸ exists_nearest53_eq n

/-- The last 512 numbers below `2⁶³` round up to it. -/
theorem nearest53_of_edge {n : Nat} (h : 2 ^ 63 - 512 ≤ n) (h' : n < 2 ^ 63) : nearest53 n = 2 ^ 63 := by
  have hunit : unit53 n = 1024 := unit53_eq (k := 62) (by omega) (by omega)
  obtain ⟨q, hq, hn⟩ := exists_nearest53_eq n
  rw [hunit] at hq hn
  have hup := hq.above
  have hdown := hq.below
  have heven := hq.even
  omega

/-- From these on, a number rounds to the nearest multiple of 2048: for the last 512 numbers this is `2⁶³`. -/
theorem nearest53_of_edge_le {n : Nat} (h : 2 ^ 63 - 512 ≤ n) (h' : n < 2 ^ 64) :
    ∃ q, Nearest 2048 n q ∧ nearest53 n = q * 2048 := by
  by_cases hlarge : 2 ^ 63 ≤ n
  · exact nearest53_of_large hlarge h'
  · have hsmall : n < 2 ^ 63 := Nat.lt_of_not_le hlarge
    exact ⟨2 ^ 52, ⟨by omega, by omega, fun _ => rfl⟩, nearest53_of_edge h hsmall⟩

/-- What is lower than these stays below `2⁶³`. -/
theorem nearest53_lt {n : Nat} (h : n < 2 ^ 63 - 512) : nearest53 n < 2 ^ 63 := by
  have hunit : unit53 n ≤ Nat.pow 2 10 := by
    refine Nat.pow_le_pow_right (by decide) ?_
    have hlog : n.log2 ≤ 62 := by
      by_contra hlog
      have hpow : 2 ^ 63 ≤ 2 ^ n.log2 := Nat.pow_le_pow_right (by decide) (by omega)
      have hself : 2 ^ n.log2 ≤ n := Nat.log2_self_le fun hz => by simp [hz] at hlog
      omega
    omega
  have hten : Nat.pow 2 10 = 1024 := rfl
  obtain ⟨q, hq, hn⟩ := exists_nearest53_eq n
  have hup := hq.above
  omega

/-! ## Rounding alike -/

/-- **Rounded alike.** At least one of the numbers does not fit a signed word, and both round to one double. That is a
    multiple of 2048, but for the last 512 numbers below `2⁶³`, which round to it although 1024 is nearer to some. -/
def RoundsAlike (m n : Whole) : Prop :=
  (2 ^ 63 ≤ m.toInt ∨ 2 ^ 63 ≤ n.toInt) ∧ 2 ^ 63 - 512 ≤ m.toInt ∧ 2 ^ 63 - 512 ≤ n.toInt ∧
    ∃ q, Nearest 2048 m.toInt.natAbs q ∧ Nearest 2048 n.toInt.natAbs q

variable {m n : Whole}

theorem RoundsAlike.symm (h : m.RoundsAlike n) : n.RoundsAlike m := by
  obtain ⟨hlarge, hm, hn, q, hqm, hqn⟩ := h
  exact ⟨hlarge.symm, hn, hm, q, hqn, hqm⟩

theorem natAbs_lt (n : Whole) : n.toInt.natAbs < 2 ^ 64 := by
  have hlower := n.lower
  have hupper := n.upper
  change -(9223372036854775808 : Int) ≤ n.toInt at hlower
  change n.toInt < (18446744073709551616 : Int) at hupper
  omega

theorem units_of_pos (h : 0 < n.toInt) : n.units = nearest53 n.toInt.natAbs * Double.unitsPerOne := by
  rw [units, Int.sign_eq_one_of_pos h, Int.one_mul]

theorem units_nonpos (h : n.toInt ≤ 0) : n.units ≤ 0 := by
  have hsign : n.toInt.sign ≤ 0 := Int.sign_nonpos_iff.mpr h
  exact Int.mul_nonpos_of_nonpos_of_nonneg (Int.mul_nonpos_of_nonpos_of_nonneg hsign (Int.natCast_nonneg _))
    (Int.natCast_nonneg _)

theorem unitsPerOne_pos : 0 < Double.unitsPerOne := by
  unfold Double.unitsPerOne
  generalize 1074 = k
  exact Nat.pow_pos (by decide)

/-- Above zero, to have one nearest double is to round to one integer. -/
theorem units_eq_iff (hm : 0 < m.toInt) (hn : 0 < n.toInt) :
    m.units = n.units ↔ nearest53 m.toInt.natAbs = nearest53 n.toInt.natAbs := by
  have hone : (Double.unitsPerOne : Int) ≠ 0 :=
    Int.natCast_ne_zero.mpr (Nat.ne_of_gt unitsPerOne_pos)
  rw [units_of_pos hm, units_of_pos hn, Int.mul_eq_mul_right_iff hone, Int.natCast_inj]

/-- A number that needs an unsigned word has its double in common with just those that round alike. -/
theorem units_eq_iff_roundsAlike (h : 2 ^ 63 ≤ n.toInt) : m.units = n.units ↔ m.RoundsAlike n := by
  have hn : 0 < n.toInt := by omega
  have hnabs := n.natAbs_lt
  obtain ⟨q, hq, hnearest⟩ := nearest53_of_edge_le (n := n.toInt.natAbs) (by omega) hnabs
  have hlarge : 2 ^ 63 ≤ nearest53 n.toInt.natAbs := by
    have hbelow := hq.below
    omega
  constructor
  · intro hunits
    have hpos : 0 < n.units := by
      have hone : 0 < (Double.unitsPerOne : Int) := Int.natCast_pos.mpr unitsPerOne_pos
      rw [units_of_pos hn]
      exact Int.mul_pos (by omega) hone
    have hm : 0 < m.toInt := by
      by_contra hle
      have hnonpos := units_nonpos (Int.not_lt.mp hle)
      omega
    rw [units_eq_iff hm hn] at hunits
    -- A number that is lower than the edge would stay below `2⁶³`, where `n` does not round to.
    have hedge : 2 ^ 63 - 512 ≤ m.toInt.natAbs := by
      by_contra hlt
      have hlow := nearest53_lt (Nat.lt_of_not_le hlt)
      omega
    obtain ⟨q', hq', hnearest'⟩ := nearest53_of_edge_le hedge m.natAbs_lt
    obtain rfl : q' = q := by omega
    exact ⟨.inr h, by omega, by omega, q', hq', hq⟩
  · rintro ⟨-, hedge, -, q', hm', hn'⟩
    obtain ⟨r, hr, hnearest'⟩ := nearest53_of_edge_le (n := m.toInt.natAbs) (by omega) m.natAbs_lt
    have hqr : q = r := (hq.unique (by decide) hn').trans (hm'.unique (by decide) hr)
    rw [units_eq_iff (by omega) hn, hnearest', hnearest, hqr]

end Whole

/-! ## Equality -/

namespace Number

/-- A signed word stands for its whole number. -/
theorem eq_whole_of_toInt64 {a : Number} {i : Int} (h : a.toInt64? = some i) :
    ∃ n : Whole, a = whole n ∧ n.toInt = i := by
  cases a with
  | double x => exact absurd h (Option.some_ne_none i).symm
  | whole n =>
      refine ⟨n, rfl, ?_⟩
      rw [toInt64?, Whole.toInt64?] at h
      split at h
      · exact Option.some.inj h
      · exact absurd h (Option.some_ne_none i).symm

/-- **Equal numbers** have one nearest double, and if both are signed words, they are the same. -/
theorem beq_iff {a b : Number} :
    a.beq b = true ↔ a.units = b.units ∧ ∀ i ∈ a.toInt64?, ∀ j ∈ b.toInt64?, i = j := by
  rw [beq]
  cases ha : a.toInt64? with
  | none => simp
  | some i =>
      cases hb : b.toInt64? with
      | none => simp
      | some j =>
          obtain ⟨m, rfl, hm⟩ := eq_whole_of_toInt64 ha
          obtain ⟨n, rfl, hn⟩ := eq_whole_of_toInt64 hb
          have hunits : i = j → m.units = n.units := fun hij => by rw [Whole.units, Whole.units, hm, hn, hij]
          simpa [units] using hunits

theorem mem_toInt64?_whole {n : Whole} {i : Int} : i ∈ (whole n).toInt64? ↔ n.toInt < 2 ^ 63 ∧ n.toInt = i := by
  show (if n.toInt < 2 ^ 63 then some n.toInt else none) = some i ↔ _
  split
  · rename_i hlt
    rw [Option.some.injEq]
    exact ⟨fun heq => ⟨hlt, heq⟩, And.right⟩
  · rename_i hlt
    exact ⟨fun h => absurd h (Option.some_ne_none i).symm, fun h => absurd h.1 hlt⟩

/-- Whole numbers are equal if they are the same, or round alike. -/
theorem beq_whole_iff (m n : Whole) : (whole m).beq (whole n) = true ↔ m.toInt = n.toInt ∨ m.RoundsAlike n := by
  rw [beq_iff]
  constructor
  · rintro ⟨hunits, hsigned⟩
    by_cases hn : 2 ^ 63 ≤ n.toInt
    · exact .inr ((Whole.units_eq_iff_roundsAlike hn).mp hunits)
    by_cases hm : 2 ^ 63 ≤ m.toInt
    · exact .inr ((Whole.units_eq_iff_roundsAlike hm).mp hunits.symm).symm
    · exact .inl (hsigned _ (mem_toInt64?_whole.mpr ⟨Int.not_le.mp hm, rfl⟩) _
        (mem_toInt64?_whole.mpr ⟨Int.not_le.mp hn, rfl⟩))
  · rintro (heq | halike)
    · refine ⟨by rw [units, units, Whole.units, Whole.units, heq], fun i hi j hj => ?_⟩
      rw [← (mem_toInt64?_whole.mp hi).2, ← (mem_toInt64?_whole.mp hj).2, heq]
    · constructor
      · rcases halike.1 with hm | hn
        · exact ((Whole.units_eq_iff_roundsAlike hm).mpr halike.symm).symm
        · exact (Whole.units_eq_iff_roundsAlike hn).mpr halike
      · intro i hi j hj
        have hm := (mem_toInt64?_whole.mp hi).1
        have hn := (mem_toInt64?_whole.mp hj).1
        have hlarge := halike.1
        omega

end Number

namespace Schema

/-- A choice between literals accepts what strictly equals one of them. -/
theorem isOk_validate_oneOf (literals : List Value) (limits : Limits) (v : Value) (next : Nat) :
    (((oneOf literals).validate limits v).start next).result.outcome.isOk = literals.any fun l => l.strictEq v := by
  have hgives : (oneOf literals).Gives 0 (.root limits) v fun r => r.ok = literals.any fun l => l.strictEq v :=
    gives_oneOf rfl
  exact (hgives next (Nat.zero_le next)).1

end Schema

namespace Value

/-- **Equality of whole numbers.** Strict and loose equality hold of two whole numbers exactly if they are the same or
    round alike. So a choice between whole numbers accepts those that are listed, and those that round like one that
    is listed. -/
theorem equal_wholes_iff (m n : Whole) (literals : List Whole) (limits : Limits) (next : Nat) :
    let listed := Schema.oneOf (literals.map fun l => number (.whole l))
    (strictEq (number (.whole m)) (number (.whole n)) = true ↔ m.toInt = n.toInt ∨ m.RoundsAlike n) ∧
      (beq (number (.whole m)) (number (.whole n)) = true ↔ m.toInt = n.toInt ∨ m.RoundsAlike n) ∧
      (((listed.validate limits (number (.whole n))).start next).result.outcome.isOk = true ↔
        ∃ l ∈ literals, l.toInt = n.toInt ∨ l.RoundsAlike n) := by
  intro listed
  refine ⟨Number.beq_whole_iff m n, Number.beq_whole_iff m n, ?_⟩
  rw [Schema.isOk_validate_oneOf, List.any_map, List.any_eq_true]
  exact exists_congr fun l => and_congr_right fun _ => Number.beq_whole_iff l n

/-- The two greatest whole numbers are equal, and either is accepted where only the other is listed. -/
theorem equal_wholes_greatest :
    let greatest : Whole := ⟨18446744073709551615, by decide, by decide⟩
    let below : Whole := ⟨18446744073709551614, by decide, by decide⟩
    let listed := Schema.oneOf [number (.whole greatest)]
    greatest.toInt ≠ below.toInt ∧ strictEq (number (.whole greatest)) (number (.whole below)) = true ∧
      beq (number (.whole greatest)) (number (.whole below)) = true ∧
      ((listed.validate .strict (number (.whole below))).start 0).result.outcome.isOk = true := by
  decide +kernel

end Value

end ConfigSchema
