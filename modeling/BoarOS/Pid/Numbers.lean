import BoarOS.Data.FamilySum
import BoarOS.Pid.Model

namespace BoarOS.Pid
open Function Finset
open Data

/-! The allocator hands out the least free number. -/

variable {nums : Allocator} {i num f scanned fuel : Nat}

namespace Allocator

structure Ok (numbers : Allocator) : Prop where
  limit : 0 < numbers.limit ∧ numbers.limit ≤ int32Max
  words : ∀ word, numbers.bitmap word < 2 ^ 64
  inside : ∀ index, numbers.taken index = true → index < numbers.limit
  below : ∀ index, index < numbers.cursor → numbers.taken index = true
  cursor : numbers.cursor < numbers.limit
  count : numbers.allocated = ∑ index ∈ Finset.range numbers.limit, (numbers.taken index).toNat

theorem Ok.initial (lim : 0 < f ∧ f ≤ int32Max) : Ok ⟨fun _ => 0, f, 0, 0⟩ where
  limit := lim
  words _ := Nat.two_pow_pos 64
  inside i set := by simp [taken] at set
  below _ none := absurd none (Nat.not_lt_zero _)
  cursor := lim.1
  count := by simp [taken]

theorem and_two_pow_eq_zero (word k : Nat) : word &&& 2 ^ k = 0 ↔ word.testBit k = false := by
  rw [Nat.and_two_pow]
  cases word.testBit k <;> simp

theorem Ok.allocated_le (ok : Ok nums) : nums.allocated ≤ nums.limit := by
  rw [ok.count]
  calc ∑ i ∈ range nums.limit, (nums.taken i).toNat ≤ ∑ _index ∈ range nums.limit, 1 := sum_le_sum fun i _ => Bool.toNat_le _
    _ = nums.limit := by simp

theorem Ok.valid (ok : Ok nums) : nums.valid = true := by
  have le := ok.allocated_le
  simp [Allocator.valid, Nat.pos_iff_ne_zero.mp ok.limit.1, ok.limit.2, ok.cursor, le]

theorem Ok.least_free (ok : Ok nums) (more : nums.allocated ≠ nums.limit) :
    ∃ f, f < nums.limit ∧ nums.cursor ≤ f ∧ nums.taken f = false ∧ ∀ j, j < f → nums.taken j = true := by
  have exists_ : ∃ f, f < nums.limit ∧ nums.taken f = false := by
    by_contra none
    push Not at none
    refine more ?_
    rw [ok.count, sum_congr rfl fun i mem => by
      rw [show nums.taken i = true by simpa using none i (mem_range.mp mem)]]
    simp
  have least := Nat.find_spec exists_
  have first : ∀ j, j < Nat.find exists_ → nums.taken j = true := fun j pre => by
    by_contra free
    exact Nat.find_min exists_ pre ⟨lt_trans pre least.1, by simpa using free⟩
  refine ⟨Nat.find exists_, least.1, ?_, least.2, first⟩
  by_contra pre
  rw [ok.below _ (Nat.lt_of_not_le pre)] at least
  cases least.2

theorem scan_spec (lt : f < nums.limit) (free : nums.taken f = false) (pre : ∀ j, j < f → nums.taken j = true)
    (start : nums.cursor + scanned ≤ f) (enough : f < nums.cursor + scanned + fuel) : nums.scan scanned fuel = some f := by
  induction fuel generalizing scanned with
  | zero => omega
  | succ fuel ih =>
    dsimp only [scan]
    rw [if_neg (show ¬ nums.cursor + scanned ≥ nums.limit by omega)]
    rcases lt_or_eq_of_le start with old | here
    · have set : (nums.bitmap ((nums.cursor + scanned) / 64)).testBit ((nums.cursor + scanned) % 64) = true := pre _ old
      rw [if_pos (by simp [ne_eq, and_two_pow_eq_zero, set])]
      exact ih (by omega) (by omega)
    · rw [here]
      have clear : (nums.bitmap (f / 64)).testBit (f % 64) = false := free
      rw [if_neg (by rwa [not_not, and_two_pow_eq_zero])]

theorem taken_setWord (i j v : Nat) (changes : ∀ k, k < 64 → v.testBit k = if k = i % 64 then bit else (nums.bitmap (i / 64)).testBit k) :
    (nums.setWord (i / 64) v).taken j = if j = i then bit else nums.taken j := by
  unfold taken setWord
  dsimp only
  rcases eq_or_ne (j / 64) (i / 64) with eq | ne
  · rw [eq, update_self, changes _ (Nat.mod_lt _ (by omega))]
    have iff : j % 64 = i % 64 ↔ j = i := by omega
    by_cases here : j = i
    · simp [here]
    · rw [if_neg (fun both => here (iff.mp both)), if_neg here]
  · rw [update_of_ne ne, if_neg]
    rintro rfl
    exact ne rfl

theorem count_setWord {s' : Allocator} {bit : Bool} (lt : i < nums.limit) (moved : ∀ j, s'.taken j = if j = i then bit else nums.taken j) :
    ∑ j ∈ range nums.limit, (s'.taken j).toNat + (nums.taken i).toNat = ∑ j ∈ range nums.limit, (nums.taken j).toNat + bit.toNat := by
  have update : s'.taken = update nums.taken i bit := by
    funext j
    rw [moved, update_apply]
  rw [update]
  exact sum_update_add_of_mem nums.taken Bool.toNat (mem_range.mpr lt) bit

theorem Ok.allocate (ok : Ok nums) : (nums.allocate = .error .exhausted ∧ ∀ i, i < nums.limit → nums.taken i = true) ∨
      ∃ i s', nums.allocate = .ok (i + 1, s') ∧ i < nums.limit ∧ nums.taken i = false ∧
        (∀ j, j < i → nums.taken j = true) ∧ Ok s' ∧ s'.limit = nums.limit ∧
        ∀ j, s'.taken j = if j = i then true else nums.taken j := by
  unfold Allocator.allocate
  rw [if_neg (by simp [ok.valid])]
  by_cases full : nums.allocated = nums.limit
  · left
    rw [if_pos full]
    refine ⟨rfl, fun i mem => ?_⟩
    have all : ∑ j ∈ range nums.limit, (nums.taken j).toNat = ∑ _j ∈ range nums.limit, 1 := by
      rw [← ok.count, full]
      simp
    have one := (sum_eq_sum_iff_of_le fun j _ => Bool.toNat_le _).mp all i (mem_range.mpr mem)
    exact Bool.toNat_eq_one.mp one
  right
  obtain ⟨f, lt, s', free, pre⟩ := ok.least_free full
  have moved : ∀ j, (nums.setWord (f / 64) (nums.bitmap (f / 64) ||| 2 ^ (f % 64))).taken j =
      if j = f then true else nums.taken j := fun j =>
    taken_setWord f j _ fun k _ => by rw [testBit_set]; by_cases here : k = f % 64 <;> simp [here]
  rw [if_neg full, scan_spec lt free pre s' (by omega)]
  refine ⟨f, _, rfl, lt, free, pre, ⟨ok.limit, fun word => ?_, fun j set => ?_, fun j old => ?_, ?_, ?_⟩, rfl, moved⟩
  · dsimp only [setWord]
    rcases eq_or_ne word (f / 64) with rfl | ne
    · rw [update_self]
      exact Nat.or_lt_two_pow (ok.words _) (Nat.pow_lt_pow_right (by omega) (Nat.mod_lt _ (by omega)))
    · rw [update_of_ne ne]
      exact ok.words word
  · change Allocator.taken (nums.setWord _ _) j = true at set
    rw [moved] at set
    split at set
    next here =>
      rw [here]
      exact lt
    · exact ok.inside j set
  · change Allocator.taken (nums.setWord _ _) j = true
    rw [moved]
    split
    · rfl
    dsimp only at old
    split at old
    · exact absurd old (Nat.not_lt_zero j)
    · exact pre j (by omega)
  · change (if f + 1 = nums.limit then 0 else f + 1) < nums.limit
    split <;> omega
  · have cnt := count_setWord lt moved
    rw [← ok.count, free] at cnt
    simp only [Bool.toNat_false] at cnt
    exact cnt.symm

theorem Ok.release (ok : Ok nums) (pos : 0 < num) (set : nums.taken (num - 1) = true) :
    ∃ s', nums.release num = .ok s' ∧ Ok s' ∧ s'.limit = nums.limit ∧ ∀ j, s'.taken j = if j = num - 1 then false else nums.taken j := by
  have lt := ok.inside _ set
  have bit : (nums.bitmap ((num - 1) / 64)).testBit ((num - 1) % 64) = true := set
  have moved : ∀ j, (nums.setWord ((num - 1) / 64) (nums.bitmap ((num - 1) / 64) &&&
      (2 ^ 64 - (2 ^ ((num - 1) % 64) + 1)))).taken j = if j = num - 1 then false else nums.taken j := fun j =>
    taken_setWord (num - 1) j _ fun k mem => by
      rw [testBit_clear (ok.words _) (Nat.mod_lt _ (by omega))]
      by_cases here : k = (num - 1) % 64 <;> simp [here]
  have cnt := count_setWord lt moved
  rw [← ok.count, set] at cnt
  simp only [Bool.toNat_false, Bool.toNat_true] at cnt
  dsimp only [Allocator.release]
  rw [if_neg (by omega), if_neg (by simp [ok.valid]), if_neg (by omega), if_neg (by simp [and_two_pow_eq_zero, bit]), if_neg (by omega)]
  refine ⟨_, rfl, ⟨ok.limit, fun word => ?_, fun j taken => ?_, fun j old => ?_, ?_, ?_⟩, rfl, moved⟩
  · dsimp only [setWord]
    rcases eq_or_ne word ((num - 1) / 64) with rfl | ne
    · rw [update_self]
      exact lt_of_le_of_lt Nat.and_le_left (ok.words _)
    · rw [update_of_ne ne]
      exact ok.words word
  · change Allocator.taken (nums.setWord _ _) j = true at taken
    rw [moved] at taken
    split at taken
    · cases taken
    · exact ok.inside j taken
  · change Allocator.taken (nums.setWord _ _) j = true
    change j < (if num - 1 < nums.cursor then num - 1 else nums.cursor) at old
    rw [moved, if_neg (by split at old <;> omega)]
    exact ok.below j (by split at old <;> omega)
  · change (if num - 1 < nums.cursor then num - 1 else nums.cursor) < nums.limit
    split <;> omega
  · exact (Nat.sub_eq_of_eq_add cnt.symm)

end Allocator
end BoarOS.Pid
