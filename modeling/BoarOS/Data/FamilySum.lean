import Mathlib.Algebra.Order.BigOperators.Group.Finset
import Mathlib.Data.Fintype.BigOperators

namespace BoarOS
open Function

theorem sum_update_add_of_mem [DecidableEq ι] (family : ι → α) (weight : α → Nat)
    (mem : i ∈ places) (value : α) : (∑ j ∈ places, weight (update family i value j)) + weight (family i) =
      (∑ j ∈ places, weight (family j)) + weight value := by
  have split : ∀ f : ι → Nat, ∑ j ∈ places, f j = f i + ∑ j ∈ places.erase i, f j := fun f =>
    (Finset.add_sum_erase _ f mem).symm
  have rest : ∑ j ∈ places.erase i, weight (update family i value j) = ∑ j ∈ places.erase i, weight (family j) :=
    Finset.sum_congr rfl fun j mem => by rw [update_of_ne (Finset.ne_of_mem_erase mem)]
  rw [split, split fun j => weight (family j), rest, update_self]
  omega

theorem sum_update_add [Fintype ι] [DecidableEq ι] (family : ι → α) (weight : α → Nat) (i : ι) (value : α) :
    (∑ j, weight (update family i value j)) + weight (family i) = (∑ j, weight (family j)) + weight value :=
  sum_update_add_of_mem family weight (Finset.mem_univ i) value

end BoarOS
