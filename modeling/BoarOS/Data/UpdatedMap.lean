import Mathlib.Logic.Function.Basic

namespace BoarOS.Data
open Function

/-! What a map holds after one of its keys was given a value. -/

variable {ι α : Type} [DecidableEq ι] {a b : ι}

theorem of_update_eq {f : ι → α} {v x : α} (eq : update f a v b = x) : b = a ∧ v = x ∨ b ≠ a ∧ f b = x :=
  ite_eq_iff.mp ((update_apply f a v b).symm.trans eq)

variable {f : ι → Option α} {v x y : α}

theorem update_known (here : f b = some y) : ∃ z, update f a (some v) b = some z := by
  by_cases eq : b = a
  · exact ⟨v, by rw [eq, update_self]⟩
  · exact ⟨y, by rw [update_of_ne eq, here]⟩

theorem update_kept {P : α → α → Prop} (got : f a = some x) (moves : P x v) (same : ∀ y, P y y)
    (here : f b = some y) : ∃ z, update f a (some v) b = some z ∧ P y z := by
  by_cases eq : b = a
  · subst eq
    rw [got] at here
    cases here
    exact ⟨v, update_self .., moves⟩
  · exact ⟨y, by rw [update_of_ne eq, here], same y⟩

theorem update_has {P : α → Prop} (got : f a = some x) (moves : P x → P v) (here : f b = some y)
    (has : P y) : ∃ z, update f a (some v) b = some z ∧ P z := by
  obtain ⟨z, now, still⟩ := update_kept (P := fun y z => P y → P z) got moves (fun _ has => has) here
  exact ⟨z, now, still has⟩

end BoarOS.Data
