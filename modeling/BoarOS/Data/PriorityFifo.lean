import Mathlib.Data.List.Basic

namespace BoarOS.Data
open List

/-! # Queues ordered by rank and then by arrival -/

variable {α : Type}

/-- `a` is the first of the greatest rank in `stored`, and `rest` is what it leaves. -/
def Takes (rank : α → Nat) (stored : List α) (a : α) (rest : List α) : Prop :=
  ∃ before after, stored = before ++ a :: after ∧ rest = before ++ after ∧ (∀ x ∈ before, rank x < rank a) ∧ ∀ x ∈ after, rank x ≤ rank a

inductive QueueEvent (α : Type) where
  | accepted (a : α)
  | taken (a : α)
deriving DecidableEq

/-- The events, newest first, of a sequential queue that has `stored` at their end. -/
inductive QueueHistory (rank : α → Nat) : List (QueueEvent α) → List α → Prop where
  | nil : QueueHistory rank [] []
  | accepted {log stored a} : QueueHistory rank log stored → QueueHistory rank (.accepted a :: log) (stored ++ [a])
  | taken {log stored a rest} : QueueHistory rank log stored → Takes rank stored a rest →
      QueueHistory rank (.taken a :: log) rest

variable {rank : α → Nat} {stored rest : List α} {a : α}

theorem takes_bucket (greatest : ∀ x ∈ stored, rank x ≤ rank a) (bucket : stored.filter (fun x => rank x == rank a) = a :: more) :
    ∃ rest, Takes rank stored a rest ∧ rest.filter (fun x => rank x == rank a) = more ∧
      ∀ k, k ≠ rank a → rest.filter (fun x => rank x == k) = stored.filter (fun x => rank x == k) := by
  obtain ⟨pre, after, split, lower, upper⟩ := filter_eq_cons_iff.mp bucket
  subst split
  have lo : ∀ x ∈ pre, rank x < rank a := by
    intro x mem
    have ne : rank x ≠ rank a := by simpa using lower x mem
    have bound := greatest x (mem_append_left _ mem)
    omega
  refine ⟨pre ++ after, ⟨pre, after, rfl, rfl, lo, fun x mem => ?_⟩, ?_, fun k ne => ?_⟩
  · exact greatest x (mem_append_right _ (mem_cons_of_mem _ mem))
  · have none : pre.filter (fun x => rank x == rank a) = [] := by
      rw [filter_eq_nil_iff]
      intro x mem eq
      have less := lo x mem
      rw [beq_iff_eq] at eq
      omega
    rw [List.filter_append, none, nil_append]
    exact upper.2
  · have skipped : (rank a == k) = false := beq_eq_false_iff_ne.mpr (Ne.symm ne)
    simp only [List.filter_append, filter_cons, skipped, Bool.false_eq_true, if_false]

theorem Takes.perm (takes : Takes rank stored a rest) : stored.Perm (a :: rest) := by
  obtain ⟨_, _, rfl, rfl, _⟩ := takes
  exact perm_middle

end BoarOS.Data
