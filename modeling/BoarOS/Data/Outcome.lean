import Mathlib.Init

namespace BoarOS.Data

/-! # Successful computations in `Except` -/

variable {ε α β : Type}

theorem bind_ok {first : Except ε α} {next : α → Except ε β} {res : β}
    (succeeds : first >>= next = .ok res) : ∃ v, first = .ok v ∧ next v = .ok res := by
  cases first with
  | error why => cases succeeds
  | ok v => exact ⟨v, rfl, succeeds⟩

end BoarOS.Data
