import Mathlib.Data.Nat.Bitwise

namespace BoarOS.Data

/-! Words of bits: shifting to the lowest set bit, clearing it, and setting or clearing one bit. -/

variable {width word k j : Nat}

/-- The place of the lowest set bit, found by shifting at most `fuel` times. -/
def lowestBit : Nat → Nat → Nat
  | 0, _ => 0
  | fuel + 1, word => if word &&& 1 = 0 then lowestBit fuel (word >>> 1) + 1 else 0

theorem lowestBit_spec (lt : word < 2 ^ width) (some : word ≠ 0) :
    word.testBit (lowestBit width word) = true ∧ ∀ j, j < lowestBit width word → word.testBit j = false := by
  induction width generalizing word with
  | zero => omega
  | succ width ih =>
    unfold lowestBit
    split
    next even =>
      have half : word >>> 1 = word / 2 := rfl
      have zero : word.testBit 0 = false := by
        rw [Nat.and_one_is_mod] at even
        simp [even]
      have rest : word >>> 1 < 2 ^ width ∧ word >>> 1 ≠ 0 := by
        rw [Nat.and_one_is_mod] at even
        omega
      obtain ⟨got, first⟩ := ih rest.1 rest.2
      rw [Nat.testBit_shiftRight, add_comm] at got
      refine ⟨got, fun j pre => ?_⟩
      cases j with
      | zero => exact zero
      | succ j =>
        have shifted := first j (by omega)
        rwa [Nat.testBit_shiftRight, add_comm] at shifted
    next odd =>
      refine ⟨?_, fun j pre => absurd pre (Nat.not_lt_zero j)⟩
      rw [Nat.and_one_is_mod] at odd
      have one : word % 2 = 1 := by omega
      simp [one]

/-- `x & (x - 1)` is `x` without its lowest bit. -/
theorem testBit_clearLowest (set : word.testBit k = true) (lowest : ∀ j, j < k → word.testBit j = false) (j : Nat) :
    (word &&& (word - 1)).testBit j = (word.testBit j && decide (j ≠ k)) := by
  obtain ⟨y, shape⟩ : ∃ y, word = 2 ^ k * (2 * y + 1) := by
    have low : word % 2 ^ k = 0 := by
      refine Nat.eq_of_testBit_eq fun i => ?_
      by_cases before : i < k
      · simp [lowest i before]
      · simp [before]
    have odd : (word / 2 ^ k) % 2 = 1 := by
      rw [Nat.testBit_eq_decide_div_mod_eq] at set
      simpa using set
    refine ⟨word / 2 ^ k / 2, ?_⟩
    rw [← Nat.div_add_mod word (2 ^ k), low, add_zero]
    congr 1
    rw [Nat.mul_div_cancel_left _ (Nat.two_pow_pos k)]
    omega
  have pos := Nat.two_pow_pos k
  have less : word - 1 = 2 ^ k * (2 * y) + (2 ^ k - 1) := by
    rw [shape, mul_add]
    omega
  have whole : word = 2 ^ k * (2 * y + 1) + 0 := by rw [add_zero, shape]
  rw [Nat.testBit_and, less, whole, Nat.testBit_two_pow_mul_add _ pos, Nat.testBit_two_pow_mul_add _ (by omega : 2 ^ k - 1 < 2 ^ k)]
  by_cases before : j < k
  · simp [before]
  simp only [before]
  obtain ⟨d, rfl⟩ := Nat.exists_eq_add_of_le (Nat.le_of_not_lt before)
  cases d with
  | zero => simp
  | succ d => simp [Nat.testBit_succ, show (2 * y + 1) / 2 = y by omega]

theorem testBit_from (lt : word < 2 ^ width) (j : Nat) :
    (word &&& ((2 ^ width - 1) <<< k % 2 ^ width)).testBit j = (word.testBit j && decide (k ≤ j)) := by
  by_cases mem : j < width
  · by_cases above : k ≤ j
    · simp [mem, show j - k < width by omega]
    · simp [above]
  · simp [Nat.testBit_lt_two_pow (lt_of_lt_of_le lt (Nat.pow_le_pow_right (by omega) (Nat.le_of_not_lt mem)))]

theorem testBit_set (j : Nat) : (word ||| 2 ^ k).testBit j = (word.testBit j || decide (j = k)) := by
  rw [Nat.testBit_or, Nat.testBit_two_pow]
  simp [eq_comm]

theorem testBit_clear (small : word < 2 ^ width) (lt : k < width) (j : Nat) :
    (word &&& (2 ^ width - (2 ^ k + 1))).testBit j = (word.testBit j && decide (j ≠ k)) := by
  rw [Nat.testBit_and, Nat.testBit_two_pow_sub_succ (Nat.pow_lt_pow_right (by omega) lt), Nat.testBit_two_pow]
  by_cases within : j < width
  · simp [within, eq_comm]
  · simp [Nat.testBit_lt_two_pow (lt_of_lt_of_le small (Nat.pow_le_pow_right (by omega) (Nat.le_of_not_lt within)))]

end BoarOS.Data
