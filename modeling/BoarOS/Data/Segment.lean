import Mathlib.Data.List.Basic

namespace BoarOS.Data
open Function List

/-! Raw buffers read through windows.

A buffer is total; only the window a client declares live has a meaning. The
two copy loops are the halves of an overlapping move, and their specifications
say which cells change and what they receive.
-/

variable {α : Type} {buf other : Nat → α} {first len dest source i : Nat}

def segment (buffer : Nat → α) (first length : Nat) : List α :=
  (List.range length).map fun index => buffer (first + index)

@[simp] theorem segment_length : (segment buf first len).length = len := by
  simp [segment]

@[simp] theorem segment_zero : segment buf first 0 = [] := rfl

theorem segment_succ : segment buf first (len + 1) = segment buf first len ++ [buf (first + len)] := by
  simp [segment, range_succ]

theorem segment_cons : segment buf first (len + 1) = buf first :: segment buf (first + 1) len := by
  simp only [segment, range_succ_eq_map, map_cons, map_map]
  congr 1
  apply map_congr_left
  intro i _
  simp only [Function.comp_apply]
  congr 1
  omega

theorem segment_append (left right : Nat) : segment buf first (left + right) =
    segment buf first left ++ segment buf (first + left) right := by
  induction right with
  | zero => simp
  | succ right ih => rw [← Nat.add_assoc, segment_succ, ih, segment_succ, append_assoc, Nat.add_assoc]

theorem segment_getElem (lt : i < (segment buf first len).length) : (segment buf first len)[i] = buf (first + i) := by
  simp [segment]

theorem mem_segment : value ∈ segment buf first len ↔ ∃ i, i < len ∧ buf (first + i) = value := by
  simp [segment]

theorem segment_congr (agree : ∀ i, i < len → buf (first + i) = other (start + i)) : segment buf first len = segment other start len := by
  apply map_congr_left
  intro i mem
  exact agree i (mem_range.mp mem)

theorem segment_update (out : i < first ∨ first + len ≤ i) : segment (update buf i v) first len = segment buf first len := by
  apply segment_congr
  intro offset mem
  exact update_of_ne (by omega) _ _

def copyAscending (destination source : Nat) : Nat → Nat → (Nat → α) → Nat → α
  | 0, _, buffer => buffer
  | remaining + 1, index, buffer =>
    copyAscending destination source remaining (index + 1) (update buffer (destination + index) (buffer (source + index)))

def copyDescending (destination source : Nat) : Nat → (Nat → α) → Nat → α
  | 0, buffer => buffer
  | index + 1, buffer =>
    copyDescending destination source index (update buffer (destination + index) (buffer (source + index)))

theorem copyAscending_apply (downwards : dest < source) (rest cell : Nat) : copyAscending dest source rest i buf cell =
      if dest + i ≤ cell ∧ cell < dest + i + rest then
        buf (source + (cell - dest))
      else buf cell := by
  induction rest generalizing i buf with
  | zero =>
    rw [if_neg (by omega)]
    rfl
  | succ rest ih =>
    rw [copyAscending, ih]
    by_cases now : cell = dest + i
    · subst now
      rw [if_neg (by omega), if_pos (by omega), update_self]
      congr 1
      omega
    · by_cases mem : dest + (i + 1) ≤ cell ∧ cell < dest + (i + 1) + rest
      · rw [if_pos mem, if_pos (by omega), update_of_ne (by omega)]
      · rw [if_neg mem, if_neg (by omega), update_of_ne now]

theorem copyDescending_apply (upwards : source < dest) (n cell : Nat) :
    copyDescending dest source n buf cell = if dest ≤ cell ∧ cell < dest + n then
        buf (source + (cell - dest))
      else buf cell := by
  induction n generalizing buf with
  | zero =>
    rw [if_neg (by omega)]
    rfl
  | succ n ih =>
    rw [copyDescending, ih]
    by_cases now : cell = dest + n
    · subst now
      rw [if_neg (by omega), if_pos (by omega), update_self]
      congr 1
      omega
    · by_cases mem : dest ≤ cell ∧ cell < dest + n
      · rw [if_pos mem, if_pos (by omega), update_of_ne (by omega)]
      · rw [if_neg mem, if_neg (by omega), update_of_ne now]

def mapRange (change : α → α) : Nat → Nat → (Nat → α) → Nat → α
  | 0, _, buffer => buffer
  | remaining + 1, index, buffer =>
    mapRange change remaining (index + 1) (update buffer index (change (buffer index)))

theorem mapRange_apply (change : α → α) (rest cell : Nat) : mapRange change rest i buf cell =
      if i ≤ cell ∧ cell < i + rest then change (buf cell) else buf cell := by
  induction rest generalizing i buf with
  | zero =>
    rw [if_neg (by omega)]
    rfl
  | succ rest ih =>
    rw [mapRange, ih]
    by_cases now : cell = i
    · subst now
      rw [if_neg (by omega), if_pos (by omega), update_self]
    by_cases mem : i + 1 ≤ cell ∧ cell < i + 1 + rest
    · rw [if_pos mem, if_pos (by omega), update_of_ne now]
    · rw [if_neg mem, if_neg (by omega), update_of_ne now]

theorem segment_map (change : α → α) : (segment buf first len).map change = segment (fun i => change (buf i)) first len := by
  simp [segment]

end BoarOS.Data
