import BoarOS.Data.AvlTree

namespace BoarOS.Data
open List Bool

/-! Balanced trees of nodes that are found by their key alone.

Nodes with equal keys would be ordered by their owner; `Unique` is for indexes in which
no key occurs twice.
-/

structure KeyNode where
  key : Nat
  owner : Nat
deriving DecidableEq

abbrev KeyIndex := AvlTree KeyNode Unit

namespace KeyIndex

def before (a b : KeyNode) : Bool := a.key < b.key || (a.key == b.key && a.owner < b.owner)
def insertNode (index : KeyIndex) (node : KeyNode) : KeyIndex := AvlTree.insert (fun _ => ()) before node index

def removeNode (index : KeyIndex) (node : KeyNode) : Option KeyIndex :=
  AvlTree.remove (fun _ => ()) before (· == node) node index

def find : KeyIndex → Nat → Option KeyNode
  | .nil, _ => none
  | .node left node _ _ right, key =>
    if node.key = key then some node else if key < node.key then find left key else find right key

structure Unique (index : KeyIndex) : Prop where
  wellFormed : index.WellFormed fun _ => ()
  sorted : index.flatten.Pairwise fun a b => a.key < b.key

variable {i : KeyIndex} {node : KeyNode} {key : Nat}

theorem Unique.nil : Unique .nil := ⟨trivial, List.Pairwise.nil⟩

theorem Unique.find_iff (unique : Unique i) : i.find key = some node ↔ node ∈ i.flatten ∧ node.key = key := by
  induction i with
  | nil => simp [find, AvlTree.flatten]
  | node left root depth reach right leftIh rightIh =>
    obtain ⟨_, _, _, _, okL, okR⟩ := unique.wellFormed
    obtain ⟨leftSorted, rootSorted, across⟩ := pairwise_append.mp unique.sorted
    obtain ⟨rootFirst, rightSorted⟩ := pairwise_cons.mp rootSorted
    have lo : ∀ k ∈ left.flatten, k.key < root.key := fun k mem =>
      across k mem root mem_cons_self
    rw [find, AvlTree.flatten, mem_append, mem_cons]
    by_cases here : root.key = key
    · rw [if_pos here, Option.some.injEq]
      constructor
      · rintro rfl
        exact ⟨.inr (.inl rfl), here⟩
      rintro ⟨onLeft | atRoot | onRight, eq⟩
      · have less := lo node onLeft
        omega
      · exact atRoot.symm
      · have less := rootFirst node onRight
        omega
    rw [if_neg here]
    split
    · rw [leftIh ⟨okL, leftSorted⟩]
      refine ⟨fun got => ⟨.inl got.1, got.2⟩, ?_⟩
      rintro ⟨onLeft | atRoot | onRight, eq⟩
      · exact ⟨onLeft, eq⟩
      · rw [atRoot] at eq
        exact absurd eq here
      · have less := rootFirst node onRight
        omega
    rw [rightIh ⟨okR, rightSorted⟩]
    refine ⟨fun got => ⟨.inr (.inr got.1), got.2⟩, ?_⟩
    rintro ⟨onLeft | atRoot | onRight, eq⟩
    · have less := lo node onLeft
      omega
    · rw [atRoot] at eq
      exact absurd eq here
    · exact ⟨onRight, eq⟩

theorem Unique.find_none_iff (unique : Unique i) : i.find key = none ↔ ∀ node ∈ i.flatten, node.key ≠ key := by
  constructor
  · intro out node mem eq
    have got := unique.find_iff.mpr ⟨mem, eq⟩
    rw [out] at got
    cases got
  intro out
  cases got : i.find key with
  | none => rfl
  | some node =>
    obtain ⟨mem, eq⟩ := unique.find_iff.mp got
    exact absurd eq (out node mem)

theorem Unique.key_inj (unique : Unique i) (mem : node ∈ i.flatten)
    (insideOther : other ∈ i.flatten) (eq : node.key = other.key) : node = other := by
  have got := unique.find_iff.mpr ⟨mem, eq⟩
  rw [unique.find_iff.mpr ⟨insideOther, rfl⟩] at got
  exact (Option.some.inj got).symm

theorem before_trans (a b c : KeyNode) (first : before a b = true) (snd : before b c = true) : before a c = true := by
  simp only [before, or_eq_true, decide_eq_true_eq, and_eq_true, beq_iff_eq] at *
  omega

theorem before_asymm (a b : KeyNode) (less : before a b = true) : before b a = false := by
  simp only [before, or_eq_true, or_eq_false_iff, decide_eq_true_eq, and_eq_true, beq_iff_eq,
    decide_eq_false_iff_not, and_eq_false_iff, beq_eq_false_iff_ne] at *
  omega

theorem Unique.ordered (unique : Unique i) : i.flatten.Pairwise fun a b => before a b = true :=
  unique.sorted.imp fun less => by simp [before, less]

theorem Unique.insertNode (unique : Unique i) (new : ∀ k ∈ i.flatten, k.key ≠ node.key) :
    Unique (i.insertNode node) ∧ (i.insertNode node).flatten.Perm (node :: i.flatten) := by
  have perm : (i.insertNode node).flatten.Perm (node :: i.flatten) := AvlTree.insert_perm before node i
  have total : ∀ k ∈ i.flatten, before node k = true ∨ before k node = true := by
    intro k mem
    have ne := new k mem
    simp only [before, or_eq_true, decide_eq_true_eq]
    omega
  have sorted : (i.insertNode node).flatten.Pairwise fun a b => before a b = true :=
    AvlTree.insert_ordered before_trans unique.ordered total
  have distinct : (i.insertNode node).flatten.Pairwise fun a b => a.key ≠ b.key := by
    rw [perm.pairwise_iff fun ne => ne.symm, pairwise_cons]
    exact ⟨fun k mem => (new k mem).symm, unique.sorted.imp fun less => ne_of_lt less⟩
  refine ⟨⟨(AvlTree.insert_rebuilt before node unique.wellFormed).wellFormed, ?_⟩, perm⟩
  refine sorted.imp₂ (fun a b less ne => ?_) distinct
  simp only [before, or_eq_true, decide_eq_true_eq, and_eq_true, beq_iff_eq] at less
  omega

theorem Unique.removeNode (unique : Unique i) (mem : node ∈ i.flatten) :
    ∃ rest, i.removeNode node = some rest ∧ Unique rest ∧ i.flatten.Perm (node :: rest.flatten) ∧
      ∀ k, k ∈ rest.flatten ↔ k ∈ i.flatten ∧ k ≠ node := by
  have itself : ∀ k ∈ i.flatten, (k == node) = true ↔ k = node := fun k _ => beq_iff_eq
  obtain ⟨rest, done, gone⟩ := AvlTree.remove_spec before_asymm itself unique.ordered mem unique.wellFormed
  refine ⟨rest, done, ⟨gone.wellFormed, unique.sorted.sublist gone.sublist⟩, gone.perm, fun k => ?_⟩
  have nodup : i.flatten.Nodup := unique.sorted.imp fun less eq => by
    rw [eq] at less
    omega
  rw [gone.perm.nodup_iff, nodup_cons] at nodup
  rw [gone.perm.mem_iff, mem_cons]
  constructor
  · exact fun member => ⟨.inr member, fun eq => nodup.1 (eq ▸ member)⟩
  · exact fun ⟨member, ne⟩ => member.resolve_left ne

def last : KeyIndex → Option KeyNode
  | .nil => none
  | .node _ node _ _ .nil => some node
  | .node _ _ _ _ right => last right

theorem last_eq_getLast? (i : KeyIndex) : i.last = i.flatten.getLast? := by
  induction i with
  | nil => rfl
  | node left root depth reach right leftIh rightIh =>
    cases right with
    | nil => simp [last, AvlTree.flatten]
    | node inner next height extent outer =>
      rw [last, rightIh]
      case x_1 => simp
      simp [AvlTree.flatten, getLast?_cons]

theorem Unique.last (unique : Unique i) (got : i.last = some node) : node ∈ i.flatten ∧ ∀ k ∈ i.flatten, k.key ≤ node.key := by
  rw [last_eq_getLast?, getLast?_eq_some_iff] at got
  obtain ⟨_, split⟩ := got
  have sorted := unique.sorted
  rw [split] at sorted ⊢
  obtain ⟨_, _, across⟩ := pairwise_append.mp sorted
  refine ⟨mem_append_right _ (mem_singleton.mpr rfl), fun k mem => ?_⟩
  rcases mem_append.mp mem with old | eq
  · exact le_of_lt (across k old node (mem_singleton.mpr rfl))
  · rw [mem_singleton.mp eq]

end KeyIndex
end BoarOS.Data
