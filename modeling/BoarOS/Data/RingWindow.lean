import Mathlib.Data.Nat.ModEq

namespace BoarOS.Data
open List

/-! A ring of `size` cells as the list of the `count` cells from `head` on. -/

variable {α : Type} {size head n k : Nat} {f g : Nat → α} {v : α}

def window (size head count : Nat) (f : Nat → α) : List α := (List.range count).map fun i => f ((head + i) % size)
def InWindow (size head count k : Nat) : Prop := ∃ i, i < count ∧ k = (head + i) % size

theorem window_cons (lt : head < size) : window size head (n + 1) f = f head :: window size ((head + 1) % size) n f := by
  unfold window
  rw [range_succ_eq_map, map_cons, map_map, add_zero, Nat.mod_eq_of_lt lt]
  congr 1
  refine map_congr_left fun i _ => ?_
  rw [Function.comp_apply, Nat.mod_add_mod]
  congr 2
  omega

theorem window_concat : window size head (n + 1) f = window size head n f ++ [f ((head + n) % size)] := by
  rw [window, range_succ, map_append]
  rfl

theorem window_congr (eq : ∀ i, i < n → f ((head + i) % size) = g ((head + i) % size)) : window size head n f = window size head n g :=
  map_congr_left fun i mem => eq i (mem_range.mp mem)

theorem position_inj (first : i < size) (snd : j < size) (eq : (head + i) % size = (head + j) % size) : i = j :=
  Nat.ModEq.eq_of_lt_of_lt (Nat.ModEq.add_left_cancel' head eq) first snd

theorem inWindow_head (lt : head < size) (some : 0 < n) : InWindow size head n head := ⟨0, some, by rw [add_zero, Nat.mod_eq_of_lt lt]⟩

theorem not_inWindow_next (room : n < size) : ¬ InWindow size head n ((head + n) % size) := by
  rintro ⟨i, mem, eq⟩
  have := position_inj room (lt_trans mem room) eq
  omega

theorem inWindow_concat : InWindow size head (n + 1) k ↔ InWindow size head n k ∨ k = (head + n) % size := by
  constructor
  · rintro ⟨i, mem, eq⟩
    rcases lt_or_eq_of_le (Nat.le_of_lt_succ mem) with pre | here
    · exact .inl ⟨i, pre, eq⟩
    · exact .inr (here ▸ eq)
  · rintro (⟨i, mem, eq⟩ | eq)
    · exact ⟨i, Nat.lt_succ_of_lt mem, eq⟩
    · exact ⟨n, Nat.lt_succ_self n, eq⟩

theorem inWindow_cons (lt : head < size) : InWindow size head (n + 1) k ↔ k = head ∨ InWindow size ((head + 1) % size) n k := by
  have shift : ∀ i, ((head + 1) % size + i) % size = (head + (i + 1)) % size := fun i => by
    rw [Nat.mod_add_mod]
    congr 1
    omega
  constructor
  · rintro ⟨i, small, eq⟩
    cases i with
    | zero => exact .inl (by rw [eq, add_zero, Nat.mod_eq_of_lt lt])
    | succ i => exact .inr ⟨i, by omega, by rw [eq, shift]⟩
  · rintro (rfl | ⟨i, _, eq⟩)
    · exact inWindow_head lt (Nat.succ_pos n)
    · exact ⟨i + 1, by omega, by rw [eq, shift]⟩

theorem not_inWindow_rest (lt : head < size) (room : n < size) : ¬ InWindow size ((head + 1) % size) n head := by
  rintro ⟨i, _, eq⟩
  have shifted : (head + 0) % size = (head + (i + 1)) % size := by
    rw [add_zero, Nat.mod_eq_of_lt lt]
    refine eq.trans ?_
    rw [Nat.mod_add_mod]
    congr 1
    omega
  have := position_inj (Nat.zero_lt_of_lt lt) (by omega) shifted
  omega

theorem window_update (out : ¬ InWindow size head n k) : window size head n (Function.update f k v) = window size head n f :=
  window_congr fun i mem => Function.update_of_ne (fun eq => out ⟨i, mem, eq.symm⟩) ..

theorem window_relocate (room : n ≤ larger) :
    window larger 0 n (fun i => if i < n then f ((head + i) % size) else other) = window size head n f :=
  map_congr_left fun i mem => by
    have lt := mem_range.mp mem
    rw [zero_add, Nat.mod_eq_of_lt (lt_of_lt_of_le lt room)]
    exact if_pos lt

end BoarOS.Data
