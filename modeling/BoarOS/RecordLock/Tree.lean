import BoarOS.RecordLock.Model

namespace BoarOS.RecordLock
open Data List AvlTree

/-! # What the walks over the lock tree compute

Each walk prunes by `max_end` and by the order of the starts. On a well-formed
search tree it computes what a pass over all locks in order would.
-/

variable {State Owner : Type}
variable {lock : Lock State Owner} {root : LockTree State Owner} {locks : List (Lock State Owner)} {edit : Edit}
  {a b : Lock State Owner} {maxEnd : Int} {height : Nat}

theorem before_iff : before a b = true ↔ a.start < b.start ∨ a.start = b.start ∧ a.address < b.address := by
  simp [before]

theorem before_trans (a b c : Lock State Owner) (first : before a b = true) (snd : before b c = true) : before a c = true := by
  rw [before_iff] at *
  rcases first with first | ⟨firstEq, firstLess⟩ <;> rcases snd with snd | ⟨secondEq, secondLess⟩
  · exact .inl (by omega)
  · exact .inl (by omega)
  · exact .inl (by omega)
  · exact .inr ⟨by omega, UInt64.lt_trans firstLess secondLess⟩

theorem before_asymm (a b : Lock State Owner) (first : before a b = true) : before b a = false := by
  rw [Bool.eq_false_iff]
  intro snd
  rw [before_iff] at *
  rcases first with first | ⟨_, firstLess⟩ <;> rcases snd with snd | ⟨_, secondLess⟩
  · omega
  · omega
  · omega
  · exact UInt64.lt_asymm firstLess secondLess

theorem before_total (ne : a.address ≠ b.address) : before a b = true ∨ before b a = true := by
  simp only [before_iff]
  rcases Int.lt_trichotomy a.start b.start with less | equal | more
  · exact .inl (.inl less)
  · rcases UInt64.lt_or_lt_of_ne ne with less | more
    · exact .inl (.inr ⟨equal, less⟩)
    · exact .inr (.inr ⟨equal.symm, more⟩)
  · exact .inr (.inl more)

theorem start_le_of_before (first : before a b = true) : a.start ≤ b.start := by
  rw [before_iff] at first
  omega

structure Searchable (root : LockTree State Owner) : Prop where
  wellFormed : root.WellFormed Lock.stop
  ordered : root.flatten.Pairwise fun a b => before a b = true

namespace Searchable

theorem nil : Searchable (.nil : LockTree State Owner) := ⟨trivial, List.Pairwise.nil⟩

theorem left {left right : LockTree State Owner} (ok : Searchable (.node left lock height maxEnd right)) : Searchable left :=
  ⟨ok.wellFormed.2.2.2.2.1, (pairwise_append.mp ok.ordered).1⟩

theorem right {left right : LockTree State Owner} (ok : Searchable (.node left lock height maxEnd right)) : Searchable right :=
  ⟨ok.wellFormed.2.2.2.2.2, (pairwise_cons.mp (pairwise_append.mp ok.ordered).2.1).2⟩

theorem root_start_le {left right : LockTree State Owner} {lock k : Lock State Owner}
    (ok : Searchable (.node left lock height maxEnd right)) (mem : k ∈ right.flatten) : lock.start ≤ k.start :=
  start_le_of_before ((pairwise_cons.mp (pairwise_append.mp ok.ordered).2.1).1 k mem)

theorem treeInsert (ok : Searchable root) (new : ∀ k ∈ root.flatten, lock.address ≠ k.address) : Searchable (treeInsert root lock) :=
  ⟨(insert_rebuilt before lock ok.wellFormed).wellFormed, insert_ordered before_trans ok.ordered fun k mem =>
      before_total (new k mem)⟩

theorem treeRemove (ok : Searchable root) (mem : lock ∈ root.flatten) (unique : ∀ k ∈ root.flatten, k.address = lock.address → k = lock) :
    ∃ rest, treeRemove root lock = some rest ∧ root.flatten.Perm (lock :: rest.flatten) ∧ Searchable rest := by
  obtain ⟨rest, got, gone⟩ : ∃ rest, RecordLock.treeRemove root lock = some rest ∧
      Removed Lock.stop root lock rest := remove_spec before_asymm
    (fun k otherIn => ⟨fun eq => unique k otherIn (beq_iff_eq.mp eq), fun eq => beq_iff_eq.mpr (congrArg Lock.address eq)⟩)
    ok.ordered mem ok.wellFormed
  exact ⟨rest, got, gone.perm, gone.wellFormed, ok.ordered.sublist gone.sublist⟩

end Searchable

structure Lock.Valid (lock : Lock State Owner) : Prop where
  start_nonneg : 0 ≤ lock.start
  start_le : lock.start ≤ lock.stop
  stop_le : lock.stop ≤ int64Max
  locking : lock.type ≠ .unlock

theorem touching_iff : touching lock start stop = true ↔ lock.start ≤ stop ∧ start ≤ lock.stop := by
  simp [touching]

section
variable [DecidableEq Owner] {owner : Owner} {kind : UInt8} {start stop : Int} {type : LockType}

theorem owned_iff : owned owner kind lock = true ↔ lock.owner = owner ∧ lock.kind = kind := by
  simp [owned]

def Blocks (owner : Owner) (kind : UInt8) (start stop : Int) (type : LockType) (lock : Lock State Owner) : Prop :=
  owned owner kind lock = false ∧ touching lock start stop = true ∧ (type = .write ∨ lock.type = .write)

theorem blocks_iff : Blocks owner kind start stop type lock ↔
      lock.start ≤ stop ∧ lock.stop ≥ start ∧ (lock.owner ≠ owner ∨ lock.kind ≠ kind) ∧ (type = .write ∨ lock.type = .write) := by
  rw [Blocks, touching_iff, Bool.eq_false_iff, ne_eq, owned_iff]
  tauto

instance : DecidablePred (@Blocks State Owner _ owner kind start stop type) := fun _ => instDecidableAnd

theorem find?_outside (out : ∀ k ∈ locks, k.stop < start ∨ stop < k.start) : locks.find? (Blocks owner kind start stop type ·) = none := by
  refine find?_eq_none.mpr fun k mem blocks => ?_
  have beside := out k mem
  obtain ⟨low, high, _⟩ := blocks_iff.mp (of_decide_eq_true blocks)
  omega

/-- The search meets the locks in their order and passes by only those that are beside the range. -/
theorem conflict_eq (exact_ : root.ReachExact Lock.stop) (ordered : root.flatten.Pairwise fun a b => before a b = true) :
    conflict owner kind start stop type root = root.flatten.find? (Blocks owner kind start stop type ·) := by
  induction root with
  | nil => rfl
  | node left root height maxEnd right leftIh rightIh =>
    obtain ⟨greatest, exactL, exactR⟩ := exact_
    rw [conflict]
    split
    next low =>
      exact (find?_outside fun k mem => .inl ((greatest.2 ⟨k, mem, rfl⟩).trans_lt low)).symm
    obtain ⟨orderedL, rest, _⟩ := pairwise_append.mp ordered
    obtain ⟨above, orderedR⟩ := pairwise_cons.mp rest
    have onLeft : (if maxEndReaches start left then conflict owner kind start stop type left else none) =
        left.flatten.find? (Blocks owner kind start stop type ·) := by
      split
      · exact leftIh exactL orderedL
      rename_i low
      cases left with
      | nil => rfl
      | node outer next depth reach inner =>
        simp only [maxEndReaches, decide_eq_true_eq] at low
        exact (find?_outside fun k mem => .inl ((exactL.1.2 ⟨k, mem, rfl⟩).trans_lt (not_le.mp low))).symm
    rw [onLeft, AvlTree.flatten, find?_append, find?_cons]
    cases left.flatten.find? (Blocks owner kind start stop type ·) with
    | some found => rfl
    | none =>
      simp only [← blocks_iff, Option.none_or]
      split
      next here =>
        rw [decide_eq_true here]
      rename_i free
      rw [decide_eq_false free]
      split
      · exact rightIh exactR orderedR
      next late =>
        exact (find?_outside fun k mem => .inr ((not_le.mp late).trans_le (start_le_of_before (above k mem)))).symm

theorem conflict_blocks (ok : Searchable root) (got : conflict owner kind start stop type root = some lock) :
    lock ∈ root.flatten ∧ Blocks owner kind start stop type lock := by
  rw [conflict_eq ok.wellFormed.reachExact ok.ordered] at got
  exact ⟨mem_of_find?_eq_some got, by simpa using find?_some got⟩

theorem not_blocks_of_conflict_none (ok : Searchable root) (none_ : conflict owner kind start stop type root = none)
    (mem : lock ∈ root.flatten) : ¬ Blocks owner kind start stop type lock := by
  rw [conflict_eq ok.wellFormed.reachExact ok.ordered, find?_eq_none] at none_
  simpa using none_ lock mem

section
variable (nonempty : edit.start ≤ edit.stop)
include nonempty

theorem Edit.visit_outside (valid : lock.Valid) (out : lock.stop < edit.first type ∨ edit.last type < lock.start) :
    edit.visit owner kind type lock = edit := by
  have startNonneg := valid.start_nonneg
  have startLe := valid.start_le
  have minNeg : int64Min < -1 := by decide
  have apart : ¬ (lock.start < edit.start ∧ lock.stop > edit.stop) := by
    rcases out with _ | _
    · have : edit.first type ≤ edit.start := by rw [Edit.first]; split <;> omega
      omega
    · have : edit.stop ≤ edit.last type := by rw [Edit.last]; split <;> omega
      omega
  have unmet : ¬ (type ≠ .unlock ∧ lock.type = type ∧ (touching lock edit.start edit.stop ∨ adjacent lock edit.start edit.stop)) := by
    rintro ⟨locking, -, meets⟩
    simp only [Edit.first, Edit.last, locking, ne_eq, not_false_eq_true, true_and] at out
    simp only [touching_iff, adjacent, Bool.or_eq_true, Bool.and_eq_true, bne_iff_ne, beq_iff_eq] at meets
    split at out <;> split at out <;> omega
  rw [Edit.visit, if_neg unmet, if_neg apart, ite_self]

theorem Edit.visit_nonempty : (edit.visit owner kind type lock).start ≤ (edit.visit owner kind type lock).stop := by
  rw [Edit.visit]
  split
  · split
    · dsimp only
      split <;> split <;> omega
    · split <;> exact nonempty
  · exact nonempty

theorem foldl_visit_outside (valid : ∀ lock ∈ locks, lock.Valid)
    (out : ∀ lock ∈ locks, lock.stop < edit.first type ∨ edit.last type < lock.start) :
    locks.foldl (Edit.visit owner kind type) edit = edit := by
  induction locks with
  | nil => rfl
  | cons lock rest ih =>
    rw [foldl_cons, Edit.visit_outside nonempty (valid lock mem_cons_self) (out lock mem_cons_self)]
    exact ih (fun k mem => valid k (.tail _ mem)) (fun k mem => out k (.tail _ mem))

theorem foldl_visit_nonempty : (locks.foldl (Edit.visit owner kind type) edit).start ≤
      (locks.foldl (Edit.visit owner kind type) edit).stop := by
  induction locks generalizing edit with
  | nil => exact nonempty
  | cons lock rest ih => exact ih (Edit.visit_nonempty nonempty)

end

/-- The pruned walk visits every lock that matters. -/
theorem prepareEdit_eq (ok : Searchable root) (valid : ∀ lock ∈ root.flatten, lock.Valid) (nonempty : edit.start ≤ edit.stop) :
    prepareEdit owner kind type root edit = root.flatten.foldl (Edit.visit owner kind type) edit := by
  induction root generalizing edit with
  | nil => rfl
  | node left root height maxEnd right leftIh rightIh =>
    have validHere := valid
    simp only [AvlTree.flatten, mem_append, mem_cons] at valid
    rw [prepareEdit]
    split
    · refine (foldl_visit_outside nonempty validHere fun lock mem => .inl ?_).symm
      have := ok.wellFormed.le_reach mem
      omega
    rw [leftIh ok.left (fun lock mem => valid lock (.inl mem)) nonempty, AvlTree.flatten, foldl_append]
    have nonemptyLeft : (left.flatten.foldl (Edit.visit owner kind type) edit).start ≤ _ := foldl_visit_nonempty nonempty
    dsimp only
    split
    next beyond =>
      refine (foldl_visit_outside nonemptyLeft (fun lock mem => ?_) fun lock mem => .inr ?_).symm
      · exact valid lock (.inr (mem_cons.mp mem))
      rcases mem_cons.mp mem with atRoot | onRight
      · exact atRoot ▸ beyond
      have := ok.root_start_le onRight
      omega
    · exact rightIh ok.right (fun lock mem => valid lock (.inr (.inr mem))) (Edit.visit_nonempty nonemptyLeft)

def met (owner : Owner) (kind : UInt8) (start stop : Int) (lock : Lock State Owner) : Bool :=
  owned owner kind lock && touching lock start stop

theorem met_iff : met owner kind start stop lock = true ↔
      (lock.owner = owner ∧ lock.kind = kind) ∧ lock.start ≤ stop ∧ start ≤ lock.stop := by
  rw [met, Bool.and_eq_true, owned_iff, touching_iff]

theorem filter_met_none (out : ∀ lock ∈ locks, lock.stop < start ∨ stop < lock.start) :
    locks.filter (met owner kind start stop) = [] ∧ locks.filter (fun lock => !met owner kind start stop lock) = locks := by
  have unmet : ∀ lock ∈ locks, met owner kind start stop lock = false := by
    intro lock mem
    rw [Bool.eq_false_iff, ne_eq, met_iff]
    have := out lock mem
    omega
  exact ⟨filter_eq_nil_iff.mpr fun lock mem => by simp [unmet lock mem], filter_eq_self.mpr fun lock mem => by simp [unmet lock mem]⟩

theorem extractOwned_spec (ok : Searchable root) (gone : List (Lock State Owner)) :
    (extractOwned owner kind start stop root gone).1.flatten = root.flatten.filter (fun lock => !met owner kind start stop lock) ∧
      (extractOwned owner kind start stop root gone).1.WellFormed Lock.stop ∧
      (extractOwned owner kind start stop root gone).2.Perm (root.flatten.filter (met owner kind start stop) ++ gone) := by
  induction root generalizing gone with
  | nil => exact ⟨rfl, trivial, .refl _⟩
  | node left root height maxEnd right leftIh rightIh =>
    rw [extractOwned]
    split
    · obtain ⟨noneMet, allKept⟩ : (node left root height maxEnd right).flatten.filter (met owner kind start stop) = [] ∧ _ :=
        filter_met_none fun lock mem => .inl (by
          have := ok.wellFormed.le_reach mem
          omega)
      rw [noneMet, allKept]
      exact ⟨rfl, ok.wellFormed, .refl _⟩
    obtain ⟨leftKept, okL, leftRemoved⟩ := leftIh ok.left gone
    dsimp only
    rw [AvlTree.flatten, List.filter_append, List.filter_append]
    split
    next beyond =>
      obtain ⟨noneMet, allKept⟩ : (root :: right.flatten).filter (met owner kind start stop) = [] ∧ _ :=
        filter_met_none fun lock mem => .inr (by
          rcases mem_cons.mp mem with atRoot | onRight
          · exact atRoot ▸ beyond
          have := ok.root_start_le onRight
          omega)
      rw [noneMet, allKept, append_nil]
      exact ⟨by rw [joinRoot_flatten, leftKept], (joinRoot_rebuilt root okL ok.right.wellFormed).wellFormed, leftRemoved⟩
    obtain ⟨rightKept, okR, rightRemoved⟩ := rightIh ok.right (extractOwned owner kind start stop left gone).2
    have both := rightRemoved.trans ((List.Perm.append_left _ leftRemoved))
    split
    next kept =>
      have unmet : met owner kind start stop root = false := by
        rw [Bool.eq_false_iff, ne_eq, met_iff]
        rintro ⟨⟨ownerEq, kindEq⟩, -, _⟩
        rcases kept with ne | ne | _
        · exact ne ownerEq
        · exact ne kindEq
        · omega
      refine ⟨?_, (joinRoot_rebuilt root okL okR).wellFormed, ?_⟩
      · rw [joinRoot_flatten, leftKept, rightKept, filter_cons, if_pos (by simp [unmet])]
      rw [filter_cons, if_neg (by simp [unmet])]
      refine both.trans ?_
      rw [← append_assoc]
      exact perm_append_comm.append_right _
    next mine =>
      have isMet : met owner kind start stop root = true := by
        rw [met_iff]
        simp only [not_or, not_not, not_lt] at mine
        exact ⟨⟨mine.1, mine.2.1⟩, by omega, mine.2.2⟩
      refine ⟨?_, joinTrees_wellFormed okL okR, ?_⟩
      · rw [joinTrees_flatten, leftKept, rightKept, filter_cons, if_neg (by simp [isMet])]
      rw [filter_cons, if_pos isMet]
      refine (both.cons root).trans ?_
      rw [← cons_append, ← append_assoc]
      exact perm_append_comm.append_right _

theorem extractOwned_searchable (searchable : Searchable root) (gone : List (Lock State Owner)) :
    Searchable (extractOwned owner kind start stop root gone).1 := by
  obtain ⟨kept, ok, -⟩ : (extractOwned owner kind start stop root gone).1.flatten = _ ∧ _ := extractOwned_spec searchable gone
  exact ⟨ok, kept ▸ searchable.ordered.sublist filter_sublist⟩

end
end BoarOS.RecordLock
