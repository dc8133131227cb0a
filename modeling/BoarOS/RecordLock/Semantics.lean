import BoarOS.RecordLock.Runs

namespace BoarOS.RecordLock
open Data List

/-! # Byte ranges

What the locks of a file mean is a map from owner, kind and byte to the type of the
lock held there. A request is specified by what it does to that map.
-/

variable {State Owner : Type} [DecidableEq Owner]

section
variable {root : LockTree State Owner} {owner : Owner} {kind : UInt8} {byte : Int} {type : LockType}

end

section
variable [DecidableEq State] {locks : Locks State Owner} {state st : State} {owner : Owner} {kind : UInt8}
  {type : LockType} {start stop : Int} {base : Nat} {edit : Edit} {s' final : Table State Owner}
  {pieces published : List (Lock State Owner)} {spares rest : List UInt64} {fresh : Lock State Owner}

theorem Committed.edited (done : Committed locks st owner kind type edit s' final pieces published
    spares rest fresh) : Edited owner kind st type edit (locks.roots st) final.root pieces fresh := by
  refine ⟨done.editing.searchable, fun lock mem => ?_, done.cleared.piece, done.cleared.apart, done.covers, done.freshState⟩
  rw [done.perm.mem_iff, mem_append, done.cleared.perm.mem_iff, mem_append, mem_filter, Bool.not_eq_true'] at mem
  rcases mem with new | isPiece | kept
  · exact .inr (.inr (done.isFresh lock new))
  · exact .inr (.inl isPiece)
  · exact .inl kept

section
variable (call : SetCall State Owner)

end

variable {Task : Type} [DecidableEq Task] {s : Shared State Owner Task}

end

end BoarOS.RecordLock
