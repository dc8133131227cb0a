import BoarOS.RecordLock.Runs

namespace BoarOS.RecordLock
open Data List

/-! # The query for a conflicting lock (`F_GETLK` of `fs/files/locks.c`) -/

def kernelEINVAL : Int := 22
def kernelEOVERFLOW : Int := 75

structure Flock where
  type : LockType
  whence : Int
  start : Int
  length : Int
  pid : Int

/-- `__builtin_add_overflow` of a sum. -/
abbrev Overflows (sum : Int) : Prop := sum < int64Min ∨ int64Max < sum

/-- Where a range is counted from; `offset` and `size` are those of the open file. -/
def flockBase (whence : Int) (offset size : Nat) : Except Int Int :=
  if whence = 0 then .ok 0
  else if whence = 1 then if int64Max < offset then .error (-kernelEOVERFLOW) else .ok offset
  else if whence = 2 then if int64Max < size then .error (-kernelEOVERFLOW) else .ok size
  else .error (-kernelEINVAL)

def rangeFromFlock (flock : Flock) (offset size : Nat) : Except Int (Int × Int) :=
  (flockBase flock.whence offset size).bind fun base =>
    let start := base + flock.start
    if Overflows start then .error (-kernelEOVERFLOW)
    else if start < 0 then .error (-kernelEINVAL)
    else if 0 < flock.length then
      let stop := start + (flock.length - 1)
      if Overflows stop then .error (-kernelEOVERFLOW) else .ok (start, stop)
    else if flock.length < 0 then
      let lower := start + flock.length
      if Overflows lower ∨ lower < 0 then .error (-kernelEINVAL) else .ok (lower, start - 1)
    else .ok (start, int64Max)

variable {State Owner : Type}

def answer (flock : Flock) (found : LockConflict Owner) : Flock :=
  if found.type = .unlock then { flock with type := .unlock }
  else
    { type := found.type, whence := 0, start := found.start, pid := found.pid
      length := if found.stop = int64Max then 0 else found.stop - found.start + 1 }

theorem rangeFromFlock_answer {lock : Lock State Owner} {flock : Flock} {found : LockConflict Owner} (valid : lock.Valid) (type : found.type = lock.type)
    (start : found.start = lock.start) (stop : found.stop = lock.stop) (offset size : Nat) :
    rangeFromFlock (answer flock found) offset size = .ok (lock.start, lock.stop) := by
  obtain ⟨nonneg, le, high, locking⟩ := valid
  rw [answer, type, if_neg locking, start, stop, rangeFromFlock]
  by_cases last : lock.stop = int64Max
  · rw [if_pos last, last]
    simp only [flockBase, if_true, Except.bind, Int.zero_add, Overflows, int64Min, int64Max] at *
    rw [if_neg (by omega), if_neg (by omega), if_neg (by decide), if_neg (by decide)]
  rw [if_neg last]
  simp only [flockBase, if_true, Except.bind, Int.zero_add, Overflows, int64Min, int64Max] at *
  rw [if_neg (by omega), if_neg (by omega), if_pos (by omega), if_neg (by omega)]
  congr 2
  omega

variable [DecidableEq Owner] (owner : Owner) (kind : UInt8)

/-- The queries of `kernel_files_fcntl_lock`; `found` is what the local variable holds before. -/
def getlk (root : LockTree State Owner) (flock : Flock) (offset size : Nat) (found : LockConflict Owner) : Except Int Flock :=
  if kind = 0 ∧ flock.type = .unlock then .error (-kernelEINVAL)
  else (rangeFromFlock flock offset size).bind fun range =>
    if kind ≠ 0 ∧ flock.pid ≠ 0 then .error (-kernelEINVAL)
    else .ok (answer flock (kernelRecordLockGet owner kind root range.1 range.2 flock.type found))

variable {root : LockTree State Owner}

/-- The lock found is the first of those that conflict, and its range is read back from the answer. -/
theorem conflict_query (exact_ : root.ReachExact Lock.stop)
    (ordered : root.flatten.Pairwise fun a b => before a b = true) (start stop : Int) (type : LockType) :
    ((conflict owner kind start stop type root).isSome ↔ ∃ lock ∈ root.flatten, Blocks owner kind start stop type lock) ∧
    (∀ lock, conflict owner kind start stop type root = some lock ↔ lock ∈ root.flatten ∧ Blocks owner kind start stop type lock ∧
      ∀ other ∈ root.flatten, Blocks owner kind start stop type other → other = lock ∨ before lock other) ∧
    ((∀ lock ∈ root.flatten, lock.Valid) → ∀ flock offset size found reply,
      getlk owner kind root flock offset size found = .ok reply → ∃ range, rangeFromFlock flock offset size = .ok range ∧
        (conflict owner kind range.1 range.2 flock.type root = none → reply = { flock with type := .unlock }) ∧
        ∀ lock, conflict owner kind range.1 range.2 flock.type root = some lock → reply.whence = 0 ∧
          reply.type = lock.type ∧ ∀ offset size, rangeFromFlock reply offset size = .ok (lock.start, lock.stop)) := by
  refine ⟨?_, fun lock => ?_, fun valid flock offset size found reply got => ?_⟩
  · rw [conflict_eq exact_ ordered, find?_isSome]
    simp
  · rw [conflict_eq exact_ ordered, AvlTree.find?_least before_asymm ordered]
    simp
  unfold getlk at got
  split at got
  · cases got
  cases ranged : rangeFromFlock flock offset size with
  | error _ =>
    rw [ranged] at got
    cases got
  | ok range =>
    rw [ranged] at got
    dsimp only [Except.bind] at got
    split at got
    · cases got
    cases got
    refine ⟨range, rfl, fun none_ => ?_, fun lock some_ => ?_⟩
    · rw [kernelRecordLockGet, none_]
      rfl
    rw [conflict_eq exact_ ordered] at some_
    have ok := valid lock (mem_of_find?_eq_some some_)
    rw [← conflict_eq exact_ ordered] at some_
    rw [kernelRecordLockGet, some_]
    refine ⟨?_, ?_, rangeFromFlock_answer ok rfl rfl rfl⟩
    · rw [answer, if_neg ok.locking]
    · rw [answer, if_neg ok.locking]

/-- A writer that asks for [4, 5] is told of the reader's [3, 9]. -/
theorem conflict_query_reader : ∃ root : LockTree Unit Bool, (root.flatten.map fun lock => (lock.start, lock.stop)) = [(3, 9)] ∧
    (conflict true 0 4 5 .write root).isSome ∧ ∃ reply, getlk true 0 root ⟨.write, 0, 4, 2, 0⟩ 0 0 ⟨0, 0, none, 0, .unlock, 0⟩ = .ok reply ∧
      reply.type = .read ∧ ∀ offset size, rangeFromFlock reply offset size = .ok (3, 9) := by
  have file := oneLock_safe.file ()
  have query := conflict_query true 0 file.searchable.wellFormed.reachExact file.searchable.ordered 4 5 .write
  obtain ⟨range, ranged, _, told⟩ := query.2.2 file.valid ⟨.write, 0, 4, 2, 0⟩ 0 0 ⟨0, 0, none, 0, .unlock, 0⟩ _ rfl
  cases (show rangeFromFlock ⟨.write, 0, 4, 2, 0⟩ 0 0 = .ok (4, 5) from rfl).symm.trans ranged
  obtain ⟨_, type, back⟩ := told ⟨64, (), false, 0, 7, .read, 3, 9⟩ (by decide)
  exact ⟨_, by decide, query.1.mpr (by decide), _, rfl, type, back⟩

end BoarOS.RecordLock
