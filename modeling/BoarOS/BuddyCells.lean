import Mathlib.Algebra.Ring.Nat
import Mathlib.Data.List.Pairwise

namespace BoarOS.BuddyCells
open List BitVec

/-! # The states of buddy blocks, three bits each (`kernel/physical_page.c`)

`none` is a trap, or a byte outside the array. -/

structure Root where
  order : Nat
  nodeOffset : Nat

structure Allocator where
  tree : List (BitVec 8)
  treeNodes : Nat

def orderPageCount (order : Nat) : Nat := 2 ^ order
def buddyInternal : BitVec 32 := 4
def Root.nodes (root : Root) : Nat := 2 * orderPageCount root.order - 1

/-- The roots that `physical_page_allocator_finalize` makes of blocks of these orders, and the number of nodes. -/
def placeRoots : List Nat → Nat → List Root × Nat
  | [], nodes => ([], nodes)
  | order :: orders, nodes =>
    let root : Root := ⟨order, nodes⟩
    let rest := placeRoots orders (nodes + root.nodes)
    (root :: rest.1, rest.2)

def joinBytes (low high : BitVec 8) : BitVec 32 := low.setWidth 32 ||| high.setWidth 32 <<< 8

/-- The byte of the first bit of a cell, and the next one if the cell reaches into it. -/
def cellWord (tree : List (BitVec 8)) (index : Nat) : Option (BitVec 32) :=
  let bit := index * 3
  tree[bit / 8]?.bind fun low =>
    if bit % 8 > 5 then tree[bit / 8 + 1]?.map (joinBytes low)
    else some (low.setWidth 32)

def treeRead (a : Allocator) (root : Root) (node : Nat) : Option (BitVec 32) :=
  let index := root.nodeOffset + node
  (cellWord a.tree index).map fun value : BitVec 32 => (value >>> (index * 3 % 8)) &&& 7#32

def treeGet (a : Allocator) (root : Root) (node : Nat) : Option (BitVec 32) :=
  if node ≥ root.nodes ∨ root.nodeOffset + node ≥ a.treeNodes then none
  else treeRead a root node

def storeWord (tree : List (BitVec 8)) (index : Nat) (value : BitVec 32) : List (BitVec 8) :=
  let bit := index * 3
  let tree := tree.set (bit / 8) (value.setWidth 8)
  if bit % 8 > 5 then tree.set (bit / 8 + 1) ((value >>> 8).setWidth 8) else tree

def putState (value state : BitVec 32) (shift : Nat) : BitVec 32 := (value &&& ~~~(7#32 <<< shift)) ||| state <<< shift

/-- The bytes written are those that `cellWord` has read. -/
def treeSet (a : Allocator) (root : Root) (node : Nat) (state : BitVec 32) : Option Allocator :=
  let index := root.nodeOffset + node
  if state > buddyInternal ∨ node ≥ root.nodes ∨ index ≥ a.treeNodes then none
  else (cellWord a.tree index).map fun value => { a with tree := storeWord a.tree index (putState value state (index * 3 % 8)) }

def bitAt (tree : List (BitVec 8)) (i : Nat) : Bool := (tree[i / 8]?.getD 0).getLsbD (i % 8)

variable {tree : List (BitVec 8)} {index j : Nat} {value state : BitVec 32}

theorem cellWord_isSome (lt : (index * 3 + 2) / 8 < tree.length) : ∃ value, cellWord tree index = some value := by
  rw [cellWord, List.getElem?_eq_getElem (by omega), Option.bind_some]
  split
  · rw [List.getElem?_eq_getElem (by omega)]
    exact ⟨_, rfl⟩
  · exact ⟨_, rfl⟩

theorem cellWord_bit (got : cellWord tree index = some value) (inside : j < 8 ∨ j < 16 ∧ 5 < index * 3 % 8) :
    value.getLsbD j = bitAt tree (index * 3 / 8 * 8 + j) := by
  obtain ⟨low, here, got⟩ := Option.bind_eq_some_iff.mp got
  have first (small : j < 8) : bitAt tree (index * 3 / 8 * 8 + j) = low.getLsbD j := by
    rw [bitAt, show (index * 3 / 8 * 8 + j) / 8 = index * 3 / 8 by omega, here]
    simp [show (index * 3 / 8 * 8 + j) % 8 = j by omega]
  split at got
  · obtain ⟨high, next, rfl⟩ := Option.map_eq_some_iff.mp got
    rcases Nat.lt_or_ge j 8 with small | large
    · simp [first small, joinBytes, small, show j < 32 by omega]
    rw [bitAt, show (index * 3 / 8 * 8 + j) / 8 = index * 3 / 8 + 1 by omega, next]
    simp [joinBytes, show j < 32 by omega, show ¬ j < 8 by omega, show (index * 3 / 8 * 8 + j) % 8 = j - 8 by omega,
      getLsbD_of_ge low j large]
  · cases got
    simp [first (by omega), show j < 32 by omega]

theorem seven_bit (lt : j < 32) : (7#32).getLsbD j = decide (j < 3) := by
  rw [show (7#32) = BitVec.ofNat 32 (2 ^ 3 - 1) from rfl, getLsbD_ofNat, Nat.testBit_two_pow_sub_one]
  simp [lt]

theorem treeGet_bits {a : Allocator} {root : Root} {node : Nat} (lt : node < root.nodes) (below : root.nodeOffset + node < a.treeNodes)
    (size : a.tree.length = (3 * a.treeNodes + 7) / 8) : ∃ cell, treeGet a root node = some cell ∧
      ∀ j < 32, cell.getLsbD j = (decide (j < 3) && bitAt a.tree ((root.nodeOffset + node) * 3 + j)) := by
  generalize at_ : root.nodeOffset + node = index at below ⊢
  obtain ⟨value, got⟩ : ∃ value, cellWord a.tree index = some value := cellWord_isSome (by omega)
  refine ⟨(value >>> (index * 3 % 8)) &&& 7#32, ?_, fun j less => ?_⟩
  · rw [treeGet, if_neg (by omega), treeRead, at_, got]
    rfl
  rw [getLsbD_and, seven_bit less, getLsbD_ushiftRight, Bool.and_comm]
  by_cases small : j < 3
  · rw [cellWord_bit got (by omega), show index * 3 / 8 * 8 + (index * 3 % 8 + j) = index * 3 + j by omega]
  · simp [small]

theorem bitAt_set {n : Nat} (lt : n < tree.length) (byte : BitVec 8) (i : Nat) :
    bitAt (tree.set n byte) i = if i / 8 = n then byte.getLsbD (i % 8) else bitAt tree i := by
  unfold bitAt
  split
  next eq =>
    rw [eq, getElem?_set_self lt]
    rfl
  next ne => rw [getElem?_set_ne (Ne.symm ne)]

theorem storeWord_bit (lt : (index * 3 + 2) / 8 < tree.length) (i : Nat) : bitAt (storeWord tree index value) i =
    if i / 8 = index * 3 / 8 ∨ i / 8 = index * 3 / 8 + 1 ∧ 5 < index * 3 % 8 then value.getLsbD (i - index * 3 / 8 * 8)
    else bitAt tree i := by
  have low (eq : i / 8 = index * 3 / 8) : (value.setWidth 8).getLsbD (i % 8) = value.getLsbD (i - index * 3 / 8 * 8) := by
    simp [show i % 8 < 8 by omega, show i - index * 3 / 8 * 8 = i % 8 by omega]
  unfold storeWord
  dsimp only
  -- The next byte is written only when the cell reaches into it.
  split
  next wide =>
    rw [bitAt_set (by rw [length_set]; omega), bitAt_set (by omega)]
    by_cases next : i / 8 = index * 3 / 8 + 1
    · simp [next, wide, show i % 8 < 8 by omega, show i - index * 3 / 8 * 8 = 8 + i % 8 by omega]
    rw [if_neg next]
    split
    next eq => rw [if_pos (.inl eq), low eq]
    · rw [if_neg (by omega)]
  next narrow =>
    rw [bitAt_set (by omega)]
    split
    next eq => rw [if_pos (.inl eq), low eq]
    · rw [if_neg (by omega)]

theorem high_clear (valid : state ≤ buddyInternal) (ge : 3 ≤ j) : state.getLsbD j = false :=
  have small : state.toNat < 2 ^ 3 := lt_of_le_of_lt (le_def.mp valid) (by decide)
  Nat.testBit_lt_two_pow (lt_of_lt_of_le small (Nat.pow_le_pow_right (by decide) ge))

theorem putState_bit (valid : state ≤ buddyInternal) {shift : Nat} (lt : j < 32) : (putState value state shift).getLsbD j =
      if shift ≤ j ∧ j < shift + 3 then state.getLsbD (j - shift) else value.getLsbD j := by
  rw [putState, getLsbD_or, getLsbD_and, getLsbD_not, getLsbD_shiftLeft, getLsbD_shiftLeft]
  by_cases before : j < shift
  · simp [lt, before, show ¬ shift ≤ j by omega]
  rw [seven_bit (by omega)]
  by_cases inside : j < shift + 3
  · simp [lt, before, inside, show shift ≤ j by omega, show j - shift < 3 by omega]
  · simp [lt, before, inside, high_clear valid (j := j - shift) (by omega), show ¬ j - shift < 3 by omega]

/-- A store changes the three bits of its cell and no other. -/
theorem treeSet_bits {a : Allocator} {root : Root} {node : Nat} (lt : node < root.nodes) (below : root.nodeOffset + node < a.treeNodes)
    (size : a.tree.length = (3 * a.treeNodes + 7) / 8) (valid : state ≤ buddyInternal) :
    ∃ tree, treeSet a root node state = some { a with tree } ∧ tree.length = a.tree.length ∧ ∀ i, bitAt tree i =
      if (root.nodeOffset + node) * 3 ≤ i ∧ i < (root.nodeOffset + node) * 3 + 3 then
        state.getLsbD (i - (root.nodeOffset + node) * 3) else bitAt a.tree i := by
  generalize at_ : root.nodeOffset + node = index at below ⊢
  obtain ⟨value, got⟩ : ∃ value, cellWord a.tree index = some value := cellWord_isSome (by omega)
  refine ⟨storeWord a.tree index (putState value state (index * 3 % 8)), ?_, ?_, fun i => ?_⟩
  · rw [treeSet, at_, if_neg (by rintro (big | out | out) <;> [exact BitVec.not_lt.mpr valid big; omega; omega]), got]
    rfl
  · unfold storeWord
    dsimp only
    split <;> simp
  rw [storeWord_bit (by omega)]
  split
  · rw [putState_bit valid (by omega)]
    split
    · rw [if_pos (by omega), show i - index * 3 / 8 * 8 - index * 3 % 8 = i - index * 3 by omega]
    · rw [if_neg (by omega), cellWord_bit got (by omega), show index * 3 / 8 * 8 + (i - index * 3 / 8 * 8) = i by omega]
  · rw [if_neg (by omega)]

theorem placeRoots_spec (orders : List Nat) (nodes : Nat) : nodes ≤ (placeRoots orders nodes).2 ∧
    (∀ r ∈ (placeRoots orders nodes).1, nodes ≤ r.nodeOffset ∧ r.nodeOffset + r.nodes ≤ (placeRoots orders nodes).2) ∧
    (placeRoots orders nodes).1.Pairwise fun r q => r.nodeOffset + r.nodes ≤ q.nodeOffset := by
  induction orders generalizing nodes with
  | nil => simp [placeRoots]
  | cons order orders ih =>
    obtain ⟨more, bounds, apart⟩ := ih (nodes + Root.nodes ⟨order, nodes⟩)
    refine ⟨by dsimp only [placeRoots]; omega, forall_mem_cons.mpr ⟨⟨le_rfl, more⟩, fun r mem => ?_⟩, ?_⟩
    · exact ⟨by have := (bounds r mem).1; omega, (bounds r mem).2⟩
    · exact pairwise_cons.mpr ⟨fun r mem => (bounds r mem).1, apart⟩

/-- The cells of two nodes are apart, whether their roots are the same or not. -/
theorem index_ne {roots : List Root} (apart : roots.Pairwise fun r q => r.nodeOffset + r.nodes ≤ q.nodeOffset) {root other : Root}
    (mem : root ∈ roots) (otherMem : other ∈ roots) {node k : Nat} (lt : node < root.nodes) (otherLt : k < other.nodes)
    (ne : other ≠ root ∨ k ≠ node) : other.nodeOffset + k ≠ root.nodeOffset + node := by
  by_cases same : other = root
  · subst same
    have := ne.resolve_left (· rfl)
    omega
  -- Offsets grow along the list, so one of two roots ends before the other begins.
  let Beside (r q : Root) := r.nodeOffset + r.nodes ≤ q.nodeOffset ∨ q.nodeOffset + q.nodes ≤ r.nodeOffset
  have : Std.Symm Beside := ⟨fun _ _ => Or.symm⟩
  have beside : roots.Pairwise Beside := apart.imp .inl
  have := beside.forall otherMem mem same
  omega

/-- In the array that `physical_page_allocator_finalize` makes: the store and the reads reach no byte outside it. -/
theorem cells_independent (a : Allocator) (orders : List Nat) (nodes : a.treeNodes = (placeRoots orders 0).2)
    (size : a.tree.length = (3 * a.treeNodes + 7) / 8) {root : Root} (mem : root ∈ (placeRoots orders 0).1) {node : Nat}
    (lt : node < root.nodes) (valid : state ≤ buddyInternal) :
    ∃ next, treeSet a root node state = some next ∧ next.treeNodes = a.treeNodes ∧ next.tree.length = a.tree.length ∧
      treeGet next root node = some state ∧ ∀ other ∈ (placeRoots orders 0).1, ∀ k < other.nodes,
        other ≠ root ∨ k ≠ node → (treeGet a other k).isSome ∧ treeGet next other k = treeGet a other k := by
  obtain ⟨_, bounds, apart⟩ := placeRoots_spec orders 0
  have below (r) (mem : r ∈ (placeRoots orders 0).1) (k) (lt : k < r.nodes) : r.nodeOffset + k < a.treeNodes := by
    have := (bounds r mem).2
    omega
  obtain ⟨tree, ran, same, bits⟩ := treeSet_bits lt (below root mem node lt) size valid
  refine ⟨{ a with tree }, ran, rfl, same, ?_, fun other otherMem k otherLt ne => ?_⟩
  · obtain ⟨cell, read, cellBits⟩ := treeGet_bits (a := { a with tree }) lt (below root mem node lt) (same.trans size)
    rw [read, Option.some_inj]
    refine eq_of_getLsbD_eq fun j less => ?_
    rw [cellBits j less, bits]
    by_cases low : j < 3
    · rw [if_pos (by omega), decide_eq_true low, Bool.true_and, Nat.add_sub_cancel_left]
    · rw [decide_eq_false low, Bool.false_and, high_clear valid (by omega)]
  -- Another cell has none of the three bits that were stored.
  have out := index_ne apart mem otherMem lt otherLt ne
  obtain ⟨cell, read, cellBits⟩ := treeGet_bits (a := { a with tree }) otherLt (below other otherMem k otherLt) (same.trans size)
  obtain ⟨old, oldRead, oldBits⟩ := treeGet_bits otherLt (below other otherMem k otherLt) size
  rw [read, oldRead, Option.some_inj]
  refine ⟨rfl, eq_of_getLsbD_eq fun j less => ?_⟩
  rw [cellBits j less, oldBits j less, bits]
  by_cases low : j < 3
  · rw [if_neg (by omega)]
  · simp [low]

theorem cells_independent_two_roots : ∃ next, treeSet ⟨[0, 0], 4⟩ ⟨1, 0⟩ 2 4#32 = some next ∧ treeGet next ⟨1, 0⟩ 2 = some 4#32 := by
  obtain ⟨next, ran, _, _, got, _⟩ := cells_independent ⟨[0, 0], 4⟩ [1, 0] rfl rfl (.head _)
    (show 2 < _ by decide) (show 4#32 ≤ _ by decide)
  exact ⟨next, ran, got⟩

end BoarOS.BuddyCells
