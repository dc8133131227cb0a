import BoarOS.DeadlineIndex
import BoarOS.RecordLock.Tree

namespace BoarOS.AvlIndex
open Data List DeadlineIndex RecordLock

/-! # The shared balanced tree (`include/kernel/avl.h`) and the joins of record locks -/

/-- The loop of `kernel_avl_after` below a node; `next` is the last node with a greater key. -/
def afterFrom (key : Nat) : KeyIndex → Option KeyNode → Option KeyNode
  | .nil, next => next
  | .node left node _ _ right, next =>
    if node.key > key then afterFrom key left (some node) else afterFrom key right next

def after (root : KeyIndex) (key : Nat) : Option KeyNode := afterFrom key root none

theorem afterFrom_eq {key : Nat} {root : KeyIndex} (sorted : root.flatten.Pairwise fun a b => KeyIndex.before a b)
    (next : Option KeyNode) : afterFrom key root next = (root.flatten.find? (key < ·.key)).or next := by
  induction root generalizing next with
  | nil => rfl
  | node left node _ _ right leftIh rightIh =>
    obtain ⟨sortedL, rest, below⟩ := pairwise_append.mp sorted
    rw [afterFrom, AvlTree.flatten, find?_append, find?_cons]
    split
    next more =>
      rw [leftIh sortedL, decide_eq_true more, Option.or_assoc, Option.some_or]
    rename_i less
    have passed : left.flatten.find? (key < ·.key) = none := by
      refine find?_eq_none.mpr fun k mem greater => ?_
      have le := key_le k node (below k mem node mem_cons_self)
      have := of_decide_eq_true greater
      omega
    rw [rightIh (pairwise_cons.mp rest).2, passed, decide_eq_false less, Option.none_or]

variable {State Owner : Type} [DecidableEq Owner]

theorem avl_trees_sound : (∀ root node, Armed timers root → node ∉ root.flatten → Armed timers (KeyIndex.insertNode root node) ∧
      (KeyIndex.insertNode root node).flatten.Perm (node :: root.flatten)) ∧
    (∀ root node, Armed timers root → node ∈ root.flatten → ∃ rest, KeyIndex.removeNode root node = some rest ∧
      Armed timers rest ∧ root.flatten.Perm (node :: rest.flatten)) ∧
    (∀ root key node, Armed timers root → (after root key = some node ↔ node ∈ root.flatten ∧ key < node.key ∧
      ∀ other ∈ root.flatten, key < other.key → other = node ∨ KeyIndex.before node other)) ∧
    (∀ (left right : LockTree State Owner) root, left.WellFormed Lock.stop → right.WellFormed Lock.stop →
      (left.joinRoot Lock.stop root right).WellFormed Lock.stop ∧
      (left.joinRoot Lock.stop root right).flatten = left.flatten ++ root :: right.flatten) ∧
    (∀ left right : LockTree State Owner, left.WellFormed Lock.stop → right.WellFormed Lock.stop →
      (left.joinTrees Lock.stop right).WellFormed Lock.stop ∧
      (left.joinTrees Lock.stop right).flatten = left.flatten ++ right.flatten) ∧
    (∀ (root : LockTree State Owner) owner kind start stop removed, Searchable root →
      Searchable (extractOwned owner kind start stop root removed).1 ∧
      (extractOwned owner kind start stop root removed).1.flatten = root.flatten.filter (!met owner kind start stop ·) ∧
      (extractOwned owner kind start stop root removed).2.Perm (root.flatten.filter (met owner kind start stop) ++ removed)) ∧
    (∀ root, Armed timers root → root.Balanced) ∧
    ∀ root : LockTree State Owner, root.WellFormed Lock.stop → root.Balanced ∧ root.ReachExact Lock.stop := by
  refine ⟨fun root node armed new => ⟨armed.insert new, AvlTree.insert_perm _ _ _⟩, fun root node armed mem => armed.remove mem,
    fun root key node armed => ?_, fun left right root okL okR => ?_, fun left right okL okR => ?_,
    fun root owner kind start stop removed ok => ?_, fun root armed => armed.wellFormed.balanced, fun root ok => ⟨ok.balanced, ok.reachExact⟩⟩
  · rw [after, afterFrom_eq armed.sorted, Option.or_none, AvlTree.find?_least KeyIndex.before_asymm armed.sorted]
    simp
  · exact ⟨(AvlTree.joinRoot_rebuilt root okL okR).wellFormed, AvlTree.joinRoot_flatten _ _ _⟩
  · exact ⟨AvlTree.joinTrees_wellFormed okL okR, AvlTree.joinTrees_flatten _ _⟩
  · obtain ⟨kept, _, gone⟩ := extractOwned_spec ok removed
    exact ⟨extractOwned_searchable ok removed, kept, gone⟩

end BoarOS.AvlIndex
