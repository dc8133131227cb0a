import BoarOS.PageWriters.Model
import Mathlib.Tactic.Ring

namespace BoarOS.PageWriters

/-! # The atomic word as two flags and a count -/

def pack (writes entry : Bool) (count : Nat) : Nat :=
  2 ^ 63 * writes.toNat + (2 ^ 62 * entry.toNat + count)

variable {writes entry : Bool} {count : Nat}

section
variable (lt : count < 2 ^ 32)
include lt

theorem count_bit (above : 32 ≤ bit) : count.testBit bit = false :=
  Nat.testBit_lt_two_pow (lt_of_lt_of_le lt (Nat.pow_le_pow_right (by omega) above))

theorem pack_testBit (bit : Nat) : (pack writes entry count).testBit bit =
      ((writes && bit == 63) || (entry && bit == 62) || count.testBit bit) := by
  have low : count < 2 ^ 62 := by omega
  have inner : 2 ^ 62 * entry.toNat + count < 2 ^ 63 := by
    have := entry.toNat_le
    omega
  rw [pack, Nat.testBit_two_pow_mul_add _ inner, Nat.testBit_two_pow_mul_add _ low]
  have flag : ∀ (v : Bool) (position : Nat), v.toNat.testBit position = (v && position == 0) := by
    intro v position
    cases v with
    | false => simp
    | true =>
      cases position with
      | zero => rfl
      | succ position => simp [Nat.testBit_succ]
  by_cases below : bit < 63
  · rw [if_pos below]
    by_cases lower : bit < 62
    · rw [if_pos lower]
      have first : (bit == 63) = false := by simp; omega
      have snd : (bit == 62) = false := by simp; omega
      simp [first, snd]
    have exactly : bit = 62 := by omega
    subst exactly
    rw [if_neg (by omega), count_bit lt (by omega), flag]
    simp
  rw [if_neg below, count_bit lt (by omega), flag]
  have snd : (bit == 62) = false := by simp; omega
  rw [snd]
  by_cases exactly : bit = 63
  · subst exactly
    simp
  have first : (bit == 63) = false := by simp; omega
  have shifted : (bit - 63 == 0) = false := by simp; omega
  rw [first, shifted]
  simp

theorem pack_injective (otherSmall : other < 2 ^ 32) (eq : pack writes entry count = pack otherWrites otherEntry other) :
    writes = otherWrites ∧ entry = otherEntry ∧ count = other := by
  cases writes <;> cases entry <;> cases otherWrites <;> cases otherEntry <;> simp [pack] at eq ⊢ <;> omega

theorem pack_writesClosed : writesClosed (pack writes entry count) = writes := by
  rw [writesClosed, pack_testBit lt, Nat.testBit_lt_two_pow (by omega : count < 2 ^ 63)]
  simp

theorem pack_entryClosed : entryClosed (pack writes entry count) = entry := by
  rw [entryClosed, pack_testBit lt, Nat.testBit_lt_two_pow (by omega : count < 2 ^ 62)]
  simp

theorem pack_anyClosed : anyClosed (pack writes entry count) = (writes || entry) := by
  rw [anyClosed, pack_writesClosed lt, pack_entryClosed lt]

theorem pack_writerCount : writerCount (pack writes entry count) = count := by
  have split : pack writes entry count = count + 2 ^ 32 * (2 ^ 31 * writes.toNat + 2 ^ 30 * entry.toNat) := by
    rw [pack]
    ring
  rw [writerCount, split, Nat.add_mul_mod_self_left, Nat.mod_eq_of_lt lt]

theorem pack_strayBits : strayBits (pack writes entry count) = false := by
  have none : pack writes entry count &&& (uint64Max - cacheWritesMask) = 0 := by
    apply Nat.eq_of_testBit_eq
    intro bit
    rw [Nat.testBit_and, pack_testBit lt, Nat.zero_testBit]
    have stray : uint64Max - cacheWritesMask = 2 ^ 32 * (2 ^ 30 - 1) := by decide +kernel
    rw [stray, Nat.testBit_two_pow_mul]
    by_cases low : bit < 32
    · simp [show ¬ 32 ≤ bit by omega]
    rw [count_bit lt (by omega), Nat.testBit_two_pow_sub_one]
    by_cases high : bit < 62
    · have first : (bit == 63) = false := by simp; omega
      have snd : (bit == 62) = false := by simp; omega
      simp [first, snd]
    · simp [show ¬ bit - 32 < 30 by omega]
  simp [strayBits, none]

theorem pack_set_writes : fetchOr (pack writes entry count) cacheWritesClosed = pack true entry count := by
  apply Nat.eq_of_testBit_eq
  intro bit
  rw [fetchOr, Nat.testBit_or, pack_testBit lt, pack_testBit lt, cacheWritesClosed, Nat.testBit_two_pow]
  by_cases top : bit = 63
  · subst top
    simp
  · have first : (bit == 63) = false := by simp [top]
    simp [first, Ne.symm top]

theorem pack_set_both : fetchOr (pack writes entry count) (cacheWritesClosed ||| cacheEntryClosed) = pack true true count := by
  apply Nat.eq_of_testBit_eq
  intro bit
  rw [fetchOr, Nat.testBit_or, Nat.testBit_or, pack_testBit lt, pack_testBit lt,
    cacheWritesClosed, cacheEntryClosed, Nat.testBit_two_pow, Nat.testBit_two_pow]
  by_cases top : bit = 63
  · subst top
    simp
  by_cases next : bit = 62
  · subst next
    simp
  have first : (bit == 63) = false := by simp [top]
  have snd : (bit == 62) = false := by simp [next]
  simp [first, snd, Ne.symm top, Ne.symm next]

theorem pack_clear_writes : fetchAndNot (pack writes entry count) cacheWritesClosed = pack false entry count := by
  apply Nat.eq_of_testBit_eq
  intro bit
  have kept : uint64Max - cacheWritesClosed = 2 ^ 63 - 1 := by decide +kernel
  rw [fetchAndNot, kept, Nat.testBit_and, pack_testBit lt, pack_testBit lt, Nat.testBit_two_pow_sub_one]
  by_cases below : bit < 63
  · have first : (bit == 63) = false := by simp; omega
    simp [below, first]
  have snd : (bit == 62) = false := by simp; omega
  simp [below, snd, count_bit lt (show 32 ≤ bit by omega)]

theorem pack_clear_both : fetchAndNot (pack writes entry count) (cacheWritesClosed ||| cacheEntryClosed) = pack false false count := by
  apply Nat.eq_of_testBit_eq
  intro bit
  have kept : uint64Max - (cacheWritesClosed ||| cacheEntryClosed) = 2 ^ 62 - 1 := by decide +kernel
  rw [fetchAndNot, kept, Nat.testBit_and, pack_testBit lt, pack_testBit lt, Nat.testBit_two_pow_sub_one]
  by_cases below : bit < 62
  · have first : (bit == 63) = false := by simp; omega
    have snd : (bit == 62) = false := by simp; omega
    simp [below, first, snd]
  simp [below, count_bit lt (show 32 ≤ bit by omega)]

end

theorem pack_zero : pack false false 0 = 0 := rfl
theorem pack_writes : pack true false 0 = cacheWritesClosed := rfl
theorem pack_both : pack true true 0 = cacheWritesClosed ||| cacheEntryClosed := by decide +kernel

theorem wordEnd_pack (lt : count < 2 ^ 32) (some : 0 < count) : wordEnd (pack writes entry count) =
      .ok (pack writes entry (count - 1), (writes || entry) && count == 1) := by
  simp only [wordEnd, pack_strayBits lt, pack_writerCount lt, pack_anyClosed lt, Bool.false_or, beq_iff_eq, if_neg (by omega : ¬ count = 0)]
  have next : pack writes entry count - 1 = pack writes entry (count - 1) := by
    simp only [pack]
    omega
  rw [next]
  rfl

end BoarOS.PageWriters
