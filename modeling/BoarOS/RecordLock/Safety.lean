import BoarOS.RecordLock.Edit

namespace BoarOS.RecordLock
open Data List

/-! # Safety of the lock tables -/

variable {State Owner : Type}

def SameOwner (a b : Lock State Owner) : Prop := a.owner = b.owner ∧ a.kind = b.kind

def Incompatible (a b : Lock State Owner) : Prop :=
  a.start ≤ b.stop ∧ b.start ≤ a.stop ∧ (a.type = .write ∨ b.type = .write)

structure FileSafe (state : State) (root : LockTree State Owner) : Prop where
  searchable : Searchable root
  placed : ∀ lock ∈ root.flatten, lock.state = state
  valid : ∀ lock ∈ root.flatten, lock.Valid
  compatible : ∀ a ∈ root.flatten, ∀ b ∈ root.flatten, ¬ SameOwner a b → ¬ Incompatible a b
  apart : ∀ a ∈ root.flatten, ∀ b ∈ root.flatten, a ≠ b → SameOwner a b → Apart a b

structure Safe (locks : Locks State Owner) : Prop where
  file : ∀ state, FileSafe state (locks.roots state)
  addresses : ∀ first second, ∀ a ∈ (locks.roots first).flatten, ∀ b ∈ (locks.roots second).flatten, a.address = b.address → a = b
  owners_nodup : ∀ owner kind, (locks.owners owner kind).Nodup
  mem_owners : ∀ owner kind lock, lock ∈ locks.owners owner kind ↔
    (lock.owner = owner ∧ lock.kind = kind) ∧ lock ∈ (locks.roots lock.state).flatten

theorem Incompatible.symm (clash : Incompatible a b) : Incompatible b a := ⟨clash.2.1, clash.1, clash.2.2.symm⟩

theorem Incompatible.of_within (clash : Incompatible c d) (cIn : a.start ≤ c.start ∧ c.stop ≤ a.stop)
    (dIn : b.start ≤ d.start ∧ d.stop ≤ b.stop) (cType : c.type = a.type) (dType : d.type = b.type) : Incompatible a b := by
  obtain ⟨_, _, writes⟩ := clash
  exact ⟨by omega, by omega, by rwa [cType, dType] at writes⟩

theorem Searchable.nodup (ok : Searchable root) : root.flatten.Nodup := by
  refine ok.ordered.imp fun {a b} first eq => ?_
  subst eq
  have := before_asymm _ _ first
  rw [first] at this
  cases this

theorem PieceOf.sameOwner (isPiece : PieceOf s start stop old piece) : SameOwner piece old := ⟨isPiece.owner_eq, isPiece.kind_eq⟩

theorem FileSafe.nil (s : State) : FileSafe s (.nil : LockTree State Owner) := ⟨.nil, nofun, nofun, nofun, nofun⟩

theorem FileSafe.subset (file : FileSafe s root)
    (searchable : Searchable s') (subset : ∀ lock ∈ s'.flatten, lock ∈ root.flatten) : FileSafe s s' where
  searchable := searchable
  placed lock inside := file.placed lock (subset lock inside)
  valid lock inside := file.valid lock (subset lock inside)
  compatible a aIn b bIn := file.compatible a (subset a aIn) b (subset b bIn)
  apart a aIn b bIn := file.apart a (subset a aIn) b (subset b bIn)

theorem Safe.empty : Safe (Locks.empty : Locks State Owner) := ⟨FileSafe.nil, nofun, fun _ _ => .nil, fun _ _ _ => ⟨nofun, nofun⟩⟩

section
variable [DecidableEq Owner] {owner : Owner} {kind : UInt8} {type : LockType} {start stop : Int} {base : Nat}
  {edit : Edit} {s : State} {root : LockTree State Owner} {old lock fresh : Lock State Owner}

theorem FileSafe.inOrder (file : FileSafe s root) : root.flatten.Pairwise (InOrder owner kind) := by
  have ne : root.flatten.Pairwise fun a b => before a b = true ∧ a ≠ b := file.searchable.ordered.and file.searchable.nodup
  refine ne.imp_of_mem fun {a b} aIn bIn order aMine bMine => ?_
  obtain ⟨aOwner, aKind⟩ := owned_iff.mp aMine
  obtain ⟨bOwner, bKind⟩ := owned_iff.mp bMine
  have apart := file.apart a aIn b bIn order.2 ⟨aOwner.trans bOwner.symm, aKind.trans bKind.symm⟩
  exact ⟨(file.valid a aIn).start_le, apart.follows (file.valid b bIn) (start_le_of_before order.1)⟩

structure Covers (owner : Owner) (kind : UInt8) (type : LockType) (edit : Edit) (fresh : Lock State Owner) : Prop where
  mine : owned owner kind fresh = true
  type_eq : fresh.type = type
  start_eq : fresh.start = edit.start
  stop_eq : fresh.stop = edit.stop

theorem Covers.apart (covers : Covers owner kind type edit fresh) (wide : edit.Widened owner kind type start stop base root.flatten)
    (locking : type ≠ .unlock) (oldIn : old ∈ root.flatten) (oldMine : owned owner kind old = true) (sameType : lock.type = old.type)
    (within : old.start ≤ lock.start ∧ lock.stop ≤ old.stop) (le : lock.start ≤ lock.stop)
    (out : lock.stop < edit.start ∨ edit.stop < lock.start) : Apart fresh lock := by
  have startEq := covers.start_eq
  have stopEq := covers.stop_eq
  refine ⟨by omega, fun eq => ?_⟩
  have := wide.clear locking old oldIn oldMine (by rw [← sameType, ← eq, covers.type_eq])
  omega

theorem Covers.compatible (covers : Covers owner kind type edit fresh) (file : FileSafe s root)
    (wide : edit.Widened owner kind type start stop base root.flatten)
    (unblocked : ∀ k ∈ root.flatten, ¬ Blocks owner kind start stop type k) (range : start ≤ stop)
    (oldIn : old ∈ root.flatten) (oldOther : ¬ owned owner kind old = true) : ¬ Incompatible fresh old := by
  rintro ⟨first, snd, writes⟩
  have ne := (file.valid old oldIn).start_le
  have start_le := wide.start_le
  have le_stop := wide.le_stop
  rw [covers.start_eq] at first
  rw [covers.stop_eq] at snd
  rw [covers.type_eq] at writes
  have point : edit.start ≤ max edit.start old.start ∧ max edit.start old.start ≤ edit.stop ∧
      old.start ≤ max edit.start old.start ∧ max edit.start old.start ≤ old.stop := by
    omega
  rcases wide.covered _ point.1 point.2.1 with _ | ⟨mine, mineIn, mineOwned, mineType, _⟩
  · refine unblocked old oldIn ⟨by simpa using oldOther, touching_iff.mpr ⟨?_, ?_⟩, writes⟩ <;> omega
  refine file.compatible mine mineIn old oldIn (fun eq => oldOther ?_) ⟨by omega, by omega, ?_⟩
  · rw [owned_iff] at mineOwned ⊢
    exact ⟨eq.1 ▸ mineOwned.1, eq.2 ▸ mineOwned.2⟩
  · rwa [mineType]

/-- The locks after an edit: those that were not met, the pieces of those that
were, and the new one. -/
structure Edited (owner : Owner) (kind : UInt8) (state : State) (type : LockType) (edit : Edit)
    (root after : LockTree State Owner) (pieces : List (Lock State Owner)) (fresh : Lock State Owner) :
    Prop where
  searchable : Searchable after
  cases_on : ∀ lock ∈ after.flatten, lock ∈ root.flatten ∧ met owner kind edit.start edit.stop lock = false ∨ lock ∈ pieces ∨
      type ≠ .unlock ∧ lock = fresh
  piece : ∀ piece ∈ pieces, ∃ old ∈ root.flatten, met owner kind edit.start edit.stop old = true ∧
    PieceOf state edit.start edit.stop old piece
  pieces_apart : ∀ a ∈ pieces, ∀ b ∈ pieces, a ≠ b → Apart a b
  covers : Covers owner kind type edit fresh
  fresh_state : fresh.state = state

variable {s' : LockTree State Owner} {pieces : List (Lock State Owner)}

theorem owned_of_sameOwner (same : SameOwner lock old) : owned owner kind lock = owned owner kind old := by
  rw [owned, owned, same.1, same.2]

theorem outside_of_unmet (mine : owned owner kind lock = true)
    (unmet : met owner kind edit.start edit.stop lock = false) : lock.stop < edit.start ∨ edit.stop < lock.start := by
  rw [met, mine, Bool.true_and, Bool.eq_false_iff, ne_eq, touching_iff] at unmet
  omega

section
variable (edited : Edited owner kind s type edit root s' pieces fresh)
include edited

section
variable (file : FileSafe s root)
include file

theorem Edited.origin (mem : lock ∈ s'.flatten) : (∃ old ∈ root.flatten, SameOwner lock old ∧ lock.type = old.type ∧
      (old.start ≤ lock.start ∧ lock.stop ≤ old.stop) ∧ lock.start ≤ lock.stop ∧ lock.state = s ∧
      (owned owner kind lock = true → lock.stop < edit.start ∨ edit.stop < lock.start)) ∨ type ≠ .unlock ∧ lock = fresh := by
  rcases edited.cases_on lock mem with ⟨kept, unmet⟩ | isPiece | new
  · exact .inl ⟨lock, kept, ⟨rfl, rfl⟩, rfl, ⟨Int.le_refl _, Int.le_refl _⟩, (file.valid lock kept).start_le,
      file.placed lock kept, fun mine => outside_of_unmet mine unmet⟩
  · obtain ⟨old, oldIn, -, isPiece⟩ := edited.piece lock isPiece
    exact .inl ⟨old, oldIn, isPiece.sameOwner, isPiece.type_eq, isPiece.within, isPiece.nonempty,
      isPiece.state_eq, fun _ => isPiece.outside⟩
  · exact .inr new

theorem Edited.valid (wide : edit.Widened owner kind type start stop base root.flatten)
    (range : 0 ≤ start ∧ start ≤ stop ∧ stop ≤ int64Max) (mem : lock ∈ s'.flatten) : lock.Valid := by
  rcases edited.origin file mem with ⟨old, oldIn, -, typeEq, _, ne, -, -⟩ | ⟨locking, new⟩
  · have oldValid := file.valid old oldIn
    have := oldValid.start_nonneg
    have := oldValid.stop_le
    exact ⟨by omega, ne, by omega, typeEq ▸ oldValid.locking⟩
  have startLe := wide.start_le
  have leStop := wide.le_stop
  subst new
  refine ⟨?_, ?_, ?_, edited.covers.type_eq ▸ locking⟩
  · rw [edited.covers.start_eq]
    rcases wide.covered edit.start (Int.le_refl _) (by omega) with mem | ⟨mine, mineIn, -, -, _, -⟩
    · omega
    have := (file.valid mine mineIn).start_nonneg
    omega
  · rw [edited.covers.start_eq, edited.covers.stop_eq]
    omega
  · rw [edited.covers.stop_eq]
    rcases wide.covered edit.stop (by omega) (Int.le_refl _) with _ | ⟨mine, mineIn, -, -, -, _⟩
    · omega
    have := (file.valid mine mineIn).stop_le
    omega

theorem Edited.compatible (wide : edit.Widened owner kind type start stop base root.flatten) (range : start ≤ stop)
    (unblocked : type ≠ .unlock → ∀ k ∈ root.flatten, ¬ Blocks owner kind start stop type k) (aIn : a ∈ s'.flatten)
    (bIn : b ∈ s'.flatten) (ne : ¬ SameOwner a b) : ¬ Incompatible a b := by
  have newCase : ∀ lock ∈ s'.flatten, ¬ SameOwner fresh lock → type ≠ .unlock → ¬ Incompatible fresh lock := by
    intro lock mem ne locking clash
    rcases edited.origin file mem with ⟨_, oldIn, eq, typeEq, within, -⟩ | ⟨-, new⟩
    · refine edited.covers.compatible file wide (unblocked locking) range oldIn (fun oldMine => ?_)
        (clash.of_within ⟨Int.le_refl _, Int.le_refl _⟩ within rfl typeEq)
      have freshMine := owned_iff.mp edited.covers.mine
      have lockMine := owned_iff.mp ((owned_of_sameOwner eq).trans oldMine)
      exact ne ⟨freshMine.1.trans lockMine.1.symm, freshMine.2.trans lockMine.2.symm⟩
    · exact ne (new ▸ ⟨rfl, rfl⟩)
  intro clash
  rcases edited.origin file aIn with ⟨aOld, aOldIn, aSame, aType, aWithin, -⟩ | ⟨locking, aNew⟩
  · rcases edited.origin file bIn with ⟨bOld, bOldIn, bSame, bType, bWithin, -⟩ | ⟨locking, bNew⟩
    · refine file.compatible aOld aOldIn bOld bOldIn (fun eq => ne ?_) (clash.of_within aWithin bWithin aType bType)
      exact ⟨aSame.1.trans (eq.1.trans bSame.1.symm), aSame.2.trans (eq.2.trans bSame.2.symm)⟩
    · subst bNew
      exact newCase a aIn (fun eq => ne ⟨eq.1.symm, eq.2.symm⟩) locking clash.symm
  · subst aNew
    exact newCase b bIn ne locking clash

theorem Edited.apart (wide : edit.Widened owner kind type start stop base root.flatten) (aIn : a ∈ s'.flatten)
    (bIn : b ∈ s'.flatten) (ne : a ≠ b) (same : SameOwner a b) : Apart a b := by
  have newCase : ∀ lock ∈ s'.flatten, lock ≠ fresh → SameOwner fresh lock → type ≠ .unlock → Apart fresh lock := by
    intro lock mem ne same locking
    rcases edited.origin file mem with ⟨old, oldIn, oldSame, typeEq, within, nonempty, -, out⟩ | ⟨-, new⟩
    · have lockMine := (owned_of_sameOwner same).symm.trans edited.covers.mine
      exact edited.covers.apart wide locking oldIn ((owned_of_sameOwner oldSame).symm.trans lockMine) typeEq within nonempty (out lockMine)
    · exact absurd new ne
  have keptPiece : ∀ kept ∈ root.flatten, met owner kind edit.start edit.stop kept = false →
      ∀ piece ∈ pieces, SameOwner kept piece → Apart kept piece := by
    intro kept keptIn unmet piece pieceIn same
    obtain ⟨old, oldIn, isMet, isPiece⟩ := edited.piece piece pieceIn
    have oldNe : kept ≠ old := fun oldEq => by simp [oldEq, isMet] at unmet
    exact (file.apart kept keptIn old oldIn oldNe ⟨same.1.trans isPiece.owner_eq, same.2.trans isPiece.kind_eq⟩).within
      ⟨Int.le_refl _, Int.le_refl _⟩ isPiece.within rfl isPiece.type_eq
  have reversed : SameOwner b a := ⟨same.1.symm, same.2.symm⟩
  rcases edited.cases_on a aIn with ⟨aKept, aUnmet⟩ | aPiece | ⟨locking, aNew⟩
  · rcases edited.cases_on b bIn with ⟨bKept, -⟩ | bPiece | ⟨locking, bNew⟩
    · exact file.apart a aKept b bKept ne same
    · exact keptPiece a aKept aUnmet b bPiece same
    · subst bNew
      exact (newCase a aIn ne reversed locking).symm
  · rcases edited.cases_on b bIn with ⟨bKept, bUnmet⟩ | bPiece | ⟨locking, bNew⟩
    · exact (keptPiece b bKept bUnmet a aPiece reversed).symm
    · exact edited.pieces_apart a aPiece b bPiece ne
    · subst bNew
      exact (newCase a aIn ne reversed locking).symm
  · subst aNew
    exact newCase b bIn (Ne.symm ne) same locking

theorem Edited.fileSafe (wide : edit.Widened owner kind type start stop base root.flatten)
    (range : 0 ≤ start ∧ start ≤ stop ∧ stop ≤ int64Max)
    (unblocked : type ≠ .unlock → ∀ k ∈ root.flatten, ¬ Blocks owner kind start stop type k) : FileSafe s s' where
  searchable := edited.searchable
  placed lock inside := by
    rcases edited.origin file inside with ⟨_, -, -, -, -, -, placed, -⟩ | ⟨-, new⟩
    · exact placed
    · exact new ▸ edited.fresh_state
  valid lock inside := edited.valid file wide range inside
  compatible a aIn b bIn ne := edited.compatible file wide range.2.1 unblocked aIn bIn ne
  apart a aIn b bIn ne same := edited.apart file wide aIn bIn ne same

end
end

structure Cleared (owner : Owner) (kind : UInt8) (state : State) (edit : Edit)
    (elsewhere : List (Lock State Owner)) (root : LockTree State Owner) (after : Table State Owner)
    (pieces : List (Lock State Owner)) (spares rest : List UInt64) : Prop where
  editing : Editing owner kind elsewhere after [] rest
  perm : after.root.flatten.Perm (pieces ++ root.flatten.filter fun lock => !met owner kind edit.start edit.stop lock)
  piece : ∀ piece ∈ pieces, ∃ old ∈ root.flatten, met owner kind edit.start edit.stop old = true ∧
    PieceOf state edit.start edit.stop old piece
  address : ∀ piece ∈ pieces, (∃ old ∈ root.flatten, old.address = piece.address) ∨ piece.address ∈ spares
  apart : ∀ a ∈ pieces, ∀ b ∈ pieces, a ≠ b → Apart a b
  rest_subset : ∀ address ∈ rest, address ∈ spares

theorem replaceOwned_cleared (file : FileSafe s t.root) (editing : Editing owner kind away t [] spares)
    (wide : edit.Widened owner kind type start stop base t.root.flatten) (range : start ≤ stop)
    (n : spares.length = edit.needed) : ∃ s' pieces rest, replaceOwned owner kind s edit.start edit.stop
          (extractOwned owner kind edit.start edit.stop t.root []).2
          { t with root := (extractOwned owner kind edit.start edit.stop t.root []).1 } spares =
        some (s', rest) ∧ rest.length = base ∧
      Cleared owner kind s edit away t.root s' pieces spares rest := by
  obtain ⟨kept, -, gone⟩ : (extractOwned owner kind edit.start edit.stop t.root []).1.flatten = _ ∧ _ :=
    extractOwned_spec file.searchable []
  rw [append_nil] at gone
  have nonempty : edit.start ≤ edit.stop := by
    have := wide.start_le
    have := wide.le_stop
    omega
  have oldMet : ∀ old ∈ (extractOwned owner kind edit.start edit.stop t.root []).2,
      old ∈ t.root.flatten ∧ met owner kind edit.start edit.stop old = true :=
    fun old mem => mem_filter.mp (gone.mem_iff.mp mem)
  have splitCount : ((extractOwned owner kind edit.start edit.stop t.root []).2.filter (splits owner kind edit.start edit.stop)).length =
      (t.root.flatten.filter (splits owner kind edit.start edit.stop)).length := by
    rw [(gone.filter _).length_eq, filter_filter]
    congr 1
    refine filter_congr fun lock _ => ?_
    rw [Bool.and_eq_left_iff_imp, splits_iff, met_iff, owned_iff]
    intro cut
    exact ⟨cut.1, by omega, by omega⟩
  have needed := wide.needed_eq
  obtain ⟨s', pieces, rest, res, new⟩ := replaceOwned_spec (editing.extract edit.start edit.stop) nonempty
    (fun old mem => owned_iff.mpr (met_iff.mp (oldMet old mem).2).1)
    (fun old mem => file.placed old (oldMet old mem).1)
    (fun old mem => (met_iff.mp (oldMet old mem).2).2) (by omega)
  have oldsApart : (extractOwned owner kind edit.start edit.stop t.root []).2.Pairwise Apart := by
    refine List.Nodup.pairwise_of_forall_ne (gone.nodup_iff.mpr (file.searchable.nodup.filter _)) fun a aIn b bIn ne => ?_
    obtain ⟨aOwner, aKind⟩ := (met_iff.mp (oldMet a aIn).2).1
    obtain ⟨bOwner, bKind⟩ := (met_iff.mp (oldMet b bIn).2).1
    exact file.apart a (oldMet a aIn).1 b (oldMet b bIn).1 ne ⟨aOwner.trans bOwner.symm, aKind.trans bKind.symm⟩
  refine ⟨s', pieces, rest, res, ?_, new.editing, kept ▸ new.perm, ?_, ?_, ?_, new.rest_subset⟩
  · have := new.spares_eq
    omega
  · intro piece mem
    obtain ⟨old, oldIn, isPiece⟩ := new.piece piece mem
    exact ⟨old, (oldMet old oldIn).1, (oldMet old oldIn).2, isPiece⟩
  · intro piece mem
    refine (new.address piece mem).imp_left fun among => ?_
    obtain ⟨old, oldIn, addrEq⟩ := mem_map.mp among
    exact ⟨old, (oldMet old oldIn).1, addrEq⟩
  · intro a aIn b bIn ne
    exact (new.apart oldsApart).forall aIn bIn ne

end
end BoarOS.RecordLock
