import Mathlib.Logic.Function.Basic

namespace BoarOS.Data

/-! Binary search for the end of a prefix.

`below` is the comparison at one index. When it holds on a prefix of the searched indices and nowhere after it, the
search returns the length of that prefix. -/

def partitionPoint (below : Nat → Bool) : Nat → Nat → Nat → Nat
  | 0, low, _ => low
  | fuel + 1, low, high =>
    if low < high then
      if below (low + (high - low) / 2) then
        partitionPoint below fuel (low + (high - low) / 2 + 1) high
      else
        partitionPoint below fuel low (low + (high - low) / 2)
    else low

def PrefixClosed (below : Nat → Bool) (count : Nat) : Prop :=
  ∀ i j, i ≤ j → j < count → below j = true → below i = true

theorem PrefixClosed.of_implies (step : ∀ i j, i < j → j < count → lo j = true → lo i = true) : PrefixClosed lo count := by
  intro i j lt mem holds
  rcases Nat.lt_or_eq_of_le lt with pre | eq
  · exact step i j pre mem holds
  · exact eq ▸ holds

/-- What the search keeps: everything before `low` is below and everything
from `high` on is not. -/
structure Bracket (below : Nat → Bool) (count low high : Nat) : Prop where
  ordered : low ≤ high
  bounded : high ≤ count
  before : ∀ i, i < low → below i = true
  after : ∀ i, high ≤ i → i < count → below i = false

theorem Bracket.step (closed : PrefixClosed lo n) (bracket : Bracket lo n low high) (act : low < high) : if lo (low + (high - low) / 2) then
      Bracket lo n (low + (high - low) / 2 + 1) high
    else Bracket lo n low (low + (high - low) / 2) := by
  have le := bracket.bounded
  split
  next holds =>
    refine ⟨by omega, le, ?_, bracket.after⟩
    intro i mem
    exact closed i _ (by omega) (by omega) holds
  rename_i fails
  refine ⟨by omega, by omega, bracket.before, ?_⟩
  intro i beyond mem
  cases holds : lo i with
  | false => rfl
  | true => exact absurd (closed _ i beyond mem holds) fails

theorem partitionPoint_bracket (closed : PrefixClosed lo n) (bracket : Bracket lo n low high) (enough : high - low ≤ fuel) :
    Bracket lo n (partitionPoint lo fuel low high) (partitionPoint lo fuel low high) := by
  induction fuel generalizing low high with
  | zero =>
    have eq : high = low := by have := bracket.ordered; omega
    subst eq
    exact bracket
  | succ fuel ih =>
    unfold partitionPoint
    by_cases active : low < high
    · have next := bracket.step closed active
      rw [if_pos active]
      split at next
      next holds =>
        rw [if_pos holds]
        exact ih next (by omega)
      next fails =>
        rw [if_neg fails]
        exact ih next (by omega)
    · have eq : high = low := by have := bracket.ordered; omega
      subst eq
      rw [if_neg active]
      exact bracket

theorem partitionPoint_spec (closed : PrefixClosed lo n) : Bracket lo n (partitionPoint lo n 0 n) (partitionPoint lo n 0 n) :=
  partitionPoint_bracket closed ⟨Nat.zero_le _, Nat.le_refl _, fun _ mem => absurd mem (Nat.not_lt_zero _),
      fun _ beyond mem => absurd mem (by omega)⟩ (by omega)

theorem Bracket.unique (bracket : Bracket lo n low low) (le : point ≤ n)
    (pre : ∀ i, i < point → lo i = true) (after : ∀ i, point ≤ i → i < n → lo i = false) : low = point := by
  rcases Nat.lt_trichotomy low point with less | eq | more
  · have holds := pre low less
    rw [bracket.after low (Nat.le_refl _) (by omega)] at holds
    exact absurd holds (by decide)
  · exact eq
  · have holds := bracket.before point more
    rw [after point (Nat.le_refl _) (by have := bracket.bounded; omega)] at holds
    exact absurd holds (by decide)

end BoarOS.Data
