import Mathlib.Data.List.Perm.Basic
import Mathlib.Order.MinMax

namespace BoarOS.Groups

open List

/-! # Supplementary groups (`kernel/credentials.c`)

`none` is an index that is not below the count, or a loop that runs on. -/

/-- The second child where it is there and greater, and the first one otherwise. -/
def greaterChild (a : List Nat) (child count : Nat) : Option Nat :=
  if child + 1 < count then a[child]?.bind fun x => a[child + 1]?.map fun y => if x < y then child + 1 else child
  else some child

def groupsSift : Nat → List Nat → Nat → Nat → Option (List Nat)
  | 0, _, _, _ => none
  | fuel + 1, a, root, count =>
    if root < count / 2 then
      (greaterChild a (root * 2 + 1) count).bind fun child => a[root]?.bind fun x => a[child]?.bind fun y =>
        if x ≥ y then some a else groupsSift fuel ((a.set root y).set child x) child count
    else some a

def groupsBuild (count : Nat) : Nat → List Nat → Option (List Nat)
  | 0, a => some a
  | i + 1, a => (groupsSift (count + 1) a i count).bind (groupsBuild count i)

def groupsDrain : Nat → List Nat → Option (List Nat)
  | n + 2, a => a[0]?.bind fun x => a[n + 1]?.bind fun y =>
    (groupsSift (n + 2) ((a.set 0 y).set (n + 1) x) 0 (n + 1)).bind (groupsDrain (n + 1))
  | _, a => some a

def kernelCredentialGroupsSort (ids : List Nat) : Option (List Nat) :=
  (groupsBuild ids.length (ids.length / 2) ids).bind (groupsDrain ids.length)

def groupsSearch (ids : List Nat) (gid : Nat) : Nat → Nat → Nat → Option Bool
  | 0, _, _ => none
  | fuel + 1, lo, hi =>
    let mid := lo + (hi - lo) / 2
    if lo < hi then ids[mid]?.bind fun v =>
      if v = gid then some true else if v < gid then groupsSearch ids gid fuel (mid + 1) hi else groupsSearch ids gid fuel lo mid
    else some false

def kernelCredentialsInGroup (fsgid : Nat) (groups : Option (List Nat)) (gid : Nat) : Option Bool :=
  let ids := groups.getD []
  if fsgid = gid then some true else groupsSearch ids gid (ids.length + 1) 0 ids.length

def val (a : List Nat) (i : Nat) : Nat := a[i]?.getD 0

def swap (a : List Nat) (i j : Nat) : List Nat := (a.set i (val a j)).set j (val a i)

variable {a : List Nat} {c i j n r lo hi fuel gid : Nat}

theorem get_val (lt : i < a.length) : a[i]? = some (val a i) := by simp [val, lt]

theorem val_swap (ltI : i < a.length) (ltJ : j < a.length) (k : Nat) :
    val (swap a i j) k = if k = j then val a i else if k = i then val a j else val a k := by
  unfold val swap
  rw [getElem?_set, getElem?_set]
  grind [val]

/-- What a sift of the first `n` entries keeps. -/
structure Sifted (a b : List Nat) (n : Nat) : Prop where
  perm : b.Perm a
  rest : ∀ i, n ≤ i → val b i = val a i
  bound : ∀ m, (∀ i < n, val a i ≤ m) → ∀ i < n, val b i ≤ m

theorem Sifted.swap (le : n ≤ a.length) (ltI : i < n) (ltJ : j < n) : Sifted a (swap a i j) n := by
  have inI : i < a.length := by omega
  have inJ : j < a.length := by omega
  refine ⟨?_, fun k out => ?_, fun m most k lt => ?_⟩
  · simpa [Groups.swap, val, inI, inJ] using set_set_perm inI inJ
  · rw [val_swap inI inJ, if_neg (by omega), if_neg (by omega)]
  · rw [val_swap inI inJ]
    grind

abbrev Child (p c : Nat) : Prop := c = p * 2 + 1 ∨ c = p * 2 + 2

def Heap (a : List Nat) (lo n : Nat) : Prop := ∀ p c, Child p c → c < n → lo ≤ p → val a c ≤ val a p

/-- The heap order but for the root that is sifted, whose children do not pass its parent. -/
structure Hole (a : List Nat) (lo n r : Nat) : Prop where
  heap : ∀ p c, Child p c → c < n → lo ≤ p → p ≠ r → val a c ≤ val a p
  grand : ∀ p c, Child p r → Child r c → c < n → lo ≤ p → val a c ≤ val a p

theorem greaterChild_spec (half : r < n / 2) (le : n ≤ a.length) : ∃ c, greaterChild a (r * 2 + 1) n = some c ∧ Child r c ∧ c < n ∧
    ∀ k, Child r k → k < n → val a k ≤ val a c := by
  unfold greaterChild
  split
  · rw [get_val (by omega), get_val (by omega), Option.bind_some, Option.map_some]
    split
    · exact ⟨_, rfl, .inr rfl, by omega, by grind⟩
    · exact ⟨_, rfl, .inl rfl, by omega, by grind⟩
  · exact ⟨_, rfl, .inl rfl, by omega, by grind⟩

theorem Hole.move (hole : Hole a lo n r) (le : n ≤ a.length) (child : Child r c) (lt : c < n)
    (most : ∀ k, Child r k → k < n → val a k ≤ val a c) (less : val a r < val a c) : Hole (swap a r c) lo n c := by
  have moved := val_swap (a := a) (i := r) (j := c) (by omega) (by omega)
  refine ⟨fun p k kid inside above ne => ?_, fun p k parent kid inside above => ?_⟩
  · have := hole.grand p c
    have := hole.heap p k kid inside above
    grind
  · have := hole.heap c k kid inside (by omega) (by omega)
    grind

theorem groupsSift_spec (le : n ≤ a.length) (hole : Hole a lo n r) (enough : n - r < fuel) :
    ∃ b, groupsSift fuel a r n = some b ∧ Sifted a b n ∧ Heap b lo n := by
  have same : Sifted a a n := ⟨.refl _, fun _ _ => rfl, fun _ most => most⟩
  induction fuel generalizing a r with
  | zero => omega
  | succ fuel ih =>
    unfold groupsSift
    split
    · obtain ⟨c, eq, child, lt, most⟩ := greaterChild_spec ‹_› le
      rw [eq, Option.bind_some, get_val (by omega), Option.bind_some, get_val (by omega), Option.bind_some]
      split
      next done =>
        refine ⟨a, rfl, same, fun p k kid inside above => ?_⟩
        by_cases root : p = r
        · exact root ▸ (most k (root ▸ kid) inside).trans done
        · exact hole.heap p k kid inside above root
      have first : Sifted a (swap a r c) n := .swap le (by omega) lt
      have size := first.perm.length_eq
      obtain ⟨b, run, sifted, heap⟩ := ih (a := swap a r c) (by omega) (hole.move le child lt most (by omega)) (by omega)
        ⟨.refl _, fun _ _ => rfl, fun _ most => most⟩
      exact ⟨b, run, ⟨sifted.perm.trans first.perm, fun i out => (sifted.rest i out).trans (first.rest i out),
        fun m most => sifted.bound m (first.bound m most)⟩, heap⟩
    · exact ⟨a, rfl, same, fun p k kid inside above => hole.heap p k kid inside above (by omega)⟩

theorem groupsBuild_spec (heap : Heap a i a.length) : ∃ b, groupsBuild a.length i a = some b ∧ b.Perm a ∧ Heap b 0 a.length := by
  generalize size : a.length = n at heap ⊢
  induction i generalizing a with
  | zero => exact ⟨a, rfl, .refl _, heap⟩
  | succ i ih =>
    obtain ⟨b, run, sifted, next⟩ := @groupsSift_spec a n i i (n + 1) size.ge
      ⟨fun p c kid lt above ne => heap p c kid lt (by omega), fun p c _ _ _ _ => by omega⟩ (by omega)
    obtain ⟨c, rest, perm, done⟩ := ih (sifted.perm.length_eq.trans size) next
    exact ⟨c, by rw [groupsBuild, run]; exact rest, perm.trans sifted.perm, done⟩

theorem Heap.most (heap : Heap a 0 n) (lt : i < n) : val a i ≤ val a 0 := by
  induction i using Nat.strongRecOn with
  | ind i ih =>
    rcases Nat.eq_zero_or_pos i with rfl | pos
    · exact le_rfl
    · exact (heap ((i - 1) / 2) i (by omega) lt (Nat.zero_le _)).trans (ih _ (by omega) (by omega))

theorem groupsDrain_spec (le : n ≤ a.length) (heap : Heap a 0 n) (sorted : ∀ i j, i < j → n ≤ j → j < a.length → val a i ≤ val a j) :
    ∃ b, groupsDrain n a = some b ∧ b.Perm a ∧ ∀ i j, i < j → j < a.length → val b i ≤ val b j := by
  induction n generalizing a with
  | zero => exact ⟨a, rfl, .refl _, fun i j less lt => sorted i j less (Nat.zero_le _) lt⟩
  | succ n ih =>
    cases n with
    | zero => exact ⟨a, rfl, .refl _, fun i j less lt => sorted i j less (by omega) lt⟩
    | succ n =>
      have first : Sifted a (swap a 0 (n + 1)) (n + 2) := .swap le (by omega) (by omega)
      have moved := val_swap (a := a) (i := 0) (j := n + 1) (by omega) (by omega)
      have size := first.perm.length_eq
      obtain ⟨b, run, sifted, next⟩ := @groupsSift_spec (swap a 0 (n + 1)) (n + 1) 0 0 (n + 2) (by omega)
        ⟨fun p c kid lt above ne => by
          rw [moved, moved, if_neg (by omega), if_neg (by omega), if_neg (by omega), if_neg ne]
          exact heap p c kid (by omega) above, fun p c _ _ _ _ => by omega⟩ (by omega)
      have whole := sifted.perm.length_eq.trans size
      have below (m) (most : ∀ i < n + 2, val a i ≤ m) : ∀ i < n + 1, val b i ≤ m :=
        sifted.bound m fun i lt => first.bound m most i (by omega)
      obtain ⟨c, rest, perm, done⟩ := ih (a := b) (by omega) next fun i j less out lt => by
        rw [sifted.rest j out, moved]
        rcases Nat.lt_or_ge i (n + 1) with inside | outside
        · split
          · exact below _ (fun k small => heap.most small) i inside
          · rw [if_neg (by omega)]
            exact below _ (fun k small => sorted k j (by omega) (by omega) (by omega)) i inside
        · rw [sifted.rest i outside, moved, if_neg (show j ≠ n + 1 by omega), if_neg (show j ≠ 0 by omega)]
          have := sorted 0 j (by omega) (by omega) (by omega)
          have := sorted i j less (by omega) (by omega)
          grind
      refine ⟨c, ?_, perm.trans (sifted.perm.trans first.perm), fun i j less lt => done i j less (by omega)⟩
      rw [groupsDrain, get_val (by omega), Option.bind_some, get_val (by omega), Option.bind_some]
      rw [show (a.set 0 (val a (n + 1))).set (n + 1) (val a 0) = swap a 0 (n + 1) from rfl, run]
      exact rest

/-- Every index with the id stays between the two bounds. -/
theorem groupsSearch_spec (sorted : ∀ i j, i < j → j < a.length → val a i ≤ val a j) (le : hi ≤ a.length)
    (inside : ∀ i < a.length, val a i = gid → lo ≤ i ∧ i < hi) (enough : hi - lo < fuel) :
    groupsSearch a gid fuel lo hi = some (decide (gid ∈ a)) := by
  induction fuel generalizing lo hi with
  | zero => omega
  | succ fuel ih =>
    unfold groupsSearch
    dsimp only
    split
    · generalize at_ : lo + (hi - lo) / 2 = mid
      rw [get_val (by omega), Option.bind_some]
      split
      next hit =>
        have mem := mem_of_getElem? (get_val (a := a) (i := mid) (by omega))
        rw [decide_eq_true (hit ▸ mem)]
      have order (i) (lt : i < a.length) (same : val a i = gid) : i < mid ∧ gid ≤ val a mid ∨ mid < i ∧ val a mid ≤ gid := by
        have := sorted i mid
        have := sorted mid i
        grind
      split
      · exact ih le (fun i lt same => by grind) (by omega)
      · exact ih (by omega) (fun i lt same => by grind) (by omega)
    · have out : gid ∉ a := fun mem => by
        obtain ⟨i, lt, eq⟩ := mem_iff_getElem.mp mem
        have := inside i lt (by simp [val, lt, eq])
        omega
      rw [decide_eq_false out]

theorem groups_sorted_and_found (ids : List Nat) : ∃ sorted, kernelCredentialGroupsSort ids = some sorted ∧ sorted.Perm ids ∧
    sorted.Pairwise (· ≤ ·) ∧ ∀ fsgid gid, kernelCredentialsInGroup fsgid (some sorted) gid = some (decide (gid = fsgid ∨ gid ∈ ids)) := by
  obtain ⟨heaped, built, perm, heap⟩ := groupsBuild_spec (a := ids) (i := ids.length / 2) fun p c kid _ _ => by omega
  have size := perm.length_eq
  obtain ⟨sorted, drained, perm', ordered⟩ := groupsDrain_spec size.ge heap fun i j _ out lt => by omega
  rw [← perm'.length_eq] at ordered
  have whole := perm'.trans perm
  refine ⟨sorted, by rw [kernelCredentialGroupsSort, built]; exact drained, whole, ?_, fun fsgid gid => ?_⟩
  · refine pairwise_iff_getElem.mpr fun i j ltI ltJ less => ?_
    simpa [val, ltI, ltJ] using ordered i j less ltJ
  unfold kernelCredentialsInGroup
  dsimp only [Option.getD_some]
  split
  next own => rw [decide_eq_true (.inl own.symm)]
  next other =>
    rw [groupsSearch_spec ordered le_rfl (fun i lt _ => ⟨Nat.zero_le i, lt⟩) (by omega)]
    simp [whole.mem_iff, Ne.symm other]

end BoarOS.Groups
