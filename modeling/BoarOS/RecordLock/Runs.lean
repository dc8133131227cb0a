import BoarOS.RecordLock.Safety

namespace BoarOS.RecordLock
open Data List Locks

/-! # Runs of requests on the lock tables -/

variable {State Owner : Type}
variable {outcomes : List (Option UInt64)}

/-- The heap hands out nodes that are not in use, and no node twice. -/
def Request.Allowed (locks : Locks State Owner) : Request State Owner → Prop
  | .set _ _ _ _ start stop _ outcomes =>
    (0 ≤ start ∧ start ≤ stop ∧ stop ≤ int64Max) ∧ (outcomes.filterMap id).Nodup ∧
      ∀ address ∈ outcomes.filterMap id, ∀ state, ∀ lock ∈ (locks.roots state).flatten, lock.address ≠ address
  | .release _ _ _ => True

theorem allocateSpares_spec (allocated : allocateSpares needed outcomes spares = some res) :
    ∃ fresh : List UInt64, fresh.Sublist (outcomes.filterMap id) ∧ fresh.length = needed ∧ res.Perm (fresh ++ spares) := by
  induction needed generalizing outcomes spares with
  | zero =>
    cases allocated
    exact ⟨[], nil_sublist _, rfl, .refl _⟩
  | succ needed ih =>
    cases outcomes with
    | nil => cases allocated
    | cons out outcomes =>
      cases out with
      | none => cases allocated
      | some addr =>
        obtain ⟨fresh, sublist, n, perm⟩ := ih allocated
        exact ⟨addr :: fresh, sublist.cons_cons addr, congrArg (· + 1) n, perm.trans perm_middle⟩

/-- The nodes of a tree have distinct addresses, so a stored height fits `int8_t`. -/
theorem Safe.height_lt (safe : Safe locks) (st : State) : (locks.roots st).height < 2 ^ 7 := by
  have file := safe.file st
  have other : ((locks.roots st).flatten.map fun lock => lock.address.toNat).Nodup :=
    List.Nodup.map_on (fun a aIn b bIn eq => safe.addresses _ _ a aIn b bIn (UInt64.toNat_inj.mp eq)) file.searchable.nodup
  have sub : ((locks.roots st).flatten.map fun lock => lock.address.toNat) ⊆ List.range (2 ^ 64) := by
    intro addr mem
    obtain ⟨lock, -, addrEq⟩ := mem_map.mp mem
    exact mem_range.mpr (addrEq ▸ lock.address.toNat_lt)
  have few := (other.subperm sub).length_le
  rw [length_map, length_range] at few
  have nodes := file.searchable.wellFormed.fib_le
  by_contra tall
  have many : Nat.fib 130 ≤ Nat.fib ((locks.roots st).height + 2) := Nat.fib_mono (by omega)
  have large : 2 ^ 64 + 1 < Nat.fib 130 := by decide +kernel
  omega

section
variable [DecidableEq State] {locks : Locks State Owner} {state st : State} {owner : Owner} {kind : UInt8}

def Locks.elsewhere (locks : Locks State Owner) (state : State) (owner : Owner) (kind : UInt8) : List (Lock State Owner) :=
  (locks.owners owner kind).filter fun lock => lock.state ≠ state

theorem Safe.elsewhere_nodup (safe : Safe locks) : (locks.elsewhere st owner kind).Nodup := (safe.owners_nodup owner kind).filter _

variable [DecidableEq Owner]

theorem Safe.mem_elsewhere (safe : Safe locks) : lock ∈ locks.elsewhere st owner kind ↔
      owned owner kind lock = true ∧ lock.state ≠ st ∧ lock ∈ (locks.roots lock.state).flatten := by
  rw [elsewhere, mem_filter, safe.mem_owners, owned_iff, decide_eq_true_iff]
  tauto

theorem Safe.editing (safe : Safe locks) (st : State) (owner : Owner) (kind : UInt8) :
    Editing owner kind (locks.elsewhere st owner kind) (locks.table st owner kind) [] [] := by
  have file := safe.file st
  have apartFrom : ∀ lock ∈ (locks.roots st).flatten, lock ∉ locks.elsewhere st owner kind :=
    fun lock mem out => (safe.mem_elsewhere.mp out).2.1 (file.placed lock mem)
  refine ⟨file.searchable, ?_, ?_⟩
  · rw [append_nil, append_nil]
    refine List.Nodup.map_on (fun a aIn b bIn eq => ?_) (nodup_append.mpr
      ⟨safe.elsewhere_nodup, file.searchable.nodup, fun a aIn b bIn eq => ?_⟩)
    · have pos : ∀ lock ∈ locks.elsewhere st owner kind ++ (locks.roots st).flatten, lock ∈ (locks.roots lock.state).flatten := by
        intro lock mem
        rcases mem_append.mp mem with out | here
        · exact (safe.mem_elsewhere.mp out).2.2
        · rwa [file.placed lock here]
      exact safe.addresses _ _ a (pos a aIn) b (pos b bIn) eq
    · exact apartFrom b bIn (eq ▸ aIn)
  · rw [append_nil]
    refine (perm_ext_iff_of_nodup (safe.owners_nodup owner kind) (nodup_append.mpr
      ⟨safe.elsewhere_nodup, file.searchable.nodup.filter _, fun a aIn b bIn eq => ?_⟩)).mpr fun lock => ?_
    · exact apartFrom b (mem_filter.mp bIn).1 (eq ▸ aIn)
    rw [safe.mem_owners, mem_append, safe.mem_elsewhere, mem_filter, owned_iff]
    by_cases here : lock.state = st
    · simp [here, and_comm]
    have absent : lock ∉ (locks.roots st).flatten := fun mem => here (file.placed lock mem)
    simp [here, absent]

theorem Locks.put_roots_same (locks : Locks State Owner) (t : Table State Owner) : (locks.put st owner kind t).roots st = t.root := by
  simp [put]

theorem Locks.put_roots_other (locks : Locks State Owner) (t : Table State Owner) (ne : pos ≠ st) :
    (locks.put st owner kind t).roots pos = locks.roots pos := by
  simp [put, ne]

theorem Locks.put_owners_same (locks : Locks State Owner) (t : Table State Owner) :
    (locks.put st owner kind t).owners owner kind = t.ownerHead := by
  simp [put]

theorem Locks.put_owners_other (locks : Locks State Owner) (t : Table State Owner)
    (ne : ¬ (k = owner ∧ other = kind)) : (locks.put st owner kind t).owners k other = locks.owners k other := by
  by_cases sameOwner : k = owner
  · subst sameOwner
    simp only [true_and] at ne
    simp [put, ne]
  · simp [put, sameOwner]

theorem Safe.put (safe : Safe locks) (file : FileSafe st t.root) (editing : Editing owner kind (locks.elsewhere st owner kind) t [] [])
    (others : ∀ lock, owned owner kind lock = false → (lock ∈ t.root.flatten ↔ lock ∈ (locks.roots st).flatten))
    (origin : ∀ lock ∈ t.root.flatten, (∃ old ∈ (locks.roots st).flatten, old.address = lock.address) ∨
        ∀ pos, ∀ k ∈ (locks.roots pos).flatten, k.address ≠ lock.address) : Safe (locks.put st owner kind t) := by
  have distinct := editing.addresses
  have head := editing.ownerHead
  rw [append_nil, append_nil] at distinct
  rw [append_nil] at head
  have sameTree : (locks.put st owner kind t).roots st = _ := locks.put_roots_same t
  have otherTree : ∀ pos, pos ≠ st → (locks.put st owner kind t).roots pos = _ := fun pos => locks.put_roots_other t
  have cross : ∀ a ∈ t.root.flatten, ∀ pos, pos ≠ st → ∀ b ∈ (locks.roots pos).flatten, a.address ≠ b.address := by
    intro a aIn pos ne b bIn eq
    rcases origin a aIn with ⟨old, oldIn, addrEq⟩ | unused
    · have oldEq := safe.addresses _ _ old oldIn b bIn (addrEq.trans eq)
      have := (safe.file st).placed old oldIn
      have := (safe.file pos).placed b bIn
      simp_all
    · exact unused pos b bIn eq.symm
  refine ⟨fun pos => ?_, fun first snd a aIn b bIn eq => ?_, fun k other => ?_, fun k other lock => ?_⟩
  · by_cases here : pos = st
    · subst here
      rwa [sameTree]
    · rw [otherTree pos here]
      exact safe.file pos
  · by_cases firstHere : first = st
    · by_cases secondHere : snd = st
      · rw [firstHere, sameTree] at aIn
        rw [secondHere, sameTree] at bIn
        exact inj_on_of_nodup_map distinct (mem_append_right _ aIn) (mem_append_right _ bIn) eq
      · rw [firstHere, sameTree] at aIn
        rw [otherTree snd secondHere] at bIn
        exact absurd eq (cross a aIn snd secondHere b bIn)
    · by_cases secondHere : snd = st
      · rw [otherTree first firstHere] at aIn
        rw [secondHere, sameTree] at bIn
        exact absurd eq.symm (cross b bIn first firstHere a aIn)
      · rw [otherTree first firstHere] at aIn
        rw [otherTree snd secondHere] at bIn
        exact safe.addresses _ _ a aIn b bIn eq
  · by_cases eq : k = owner ∧ other = kind
    · rw [eq.1, eq.2, put_owners_same, head.nodup_iff]
      exact (filter_sublist.append_left _).nodup (List.Nodup.of_map _ distinct)
    · rw [put_owners_other _ _ eq]
      exact safe.owners_nodup k other
  · by_cases eq : k = owner ∧ other = kind
    · rw [eq.1, eq.2, put_owners_same, head.mem_iff, mem_append, safe.mem_elsewhere, mem_filter, ← owned_iff]
      by_cases here : lock.state = st
      · rw [here, sameTree]
        tauto
      have out : lock ∉ t.root.flatten := fun mem => here (file.placed lock mem)
      rw [otherTree _ here]
      tauto
    · rw [put_owners_other _ _ eq, safe.mem_owners]
      refine and_congr_right fun key => ?_
      by_cases here : lock.state = st
      · rw [here, sameTree, others lock]
        rw [Bool.eq_false_iff, ne_eq, owned_iff, key.1, key.2]
        exact eq
      · rw [otherTree _ here]

variable {t : Table State Owner} {type : LockType} {start stop : Int} {base : Nat} {edit : Edit}
  {pieces : List (Lock State Owner)} {spares rest : List UInt64} {fresh : Lock State Owner}

theorem Locks.put_table (locks : Locks State Owner) : locks.put st owner kind (locks.table st owner kind) = locks := by
  simp [put, table]

theorem Cleared.safe (safe : Safe locks) (published : List (Lock State Owner))
    (cleared : Cleared owner kind st edit (locks.elsewhere st owner kind) (locks.roots st) s' pieces spares rest)
    (wide : edit.Widened owner kind type start stop base (locks.roots st).flatten) (range : 0 ≤ start ∧ start ≤ stop ∧ stop ≤ int64Max)
    (unblocked : type ≠ .unlock → ∀ k ∈ (locks.roots st).flatten, ¬ Blocks owner kind start stop type k)
    (unused : ∀ addr ∈ spares, ∀ pos, ∀ k ∈ (locks.roots pos).flatten, k.address ≠ addr) (covers : Covers owner kind type edit fresh)
    (freshState : fresh.state = st) (editing : Editing owner kind (locks.elsewhere st owner kind) final [] [])
    (perm : final.root.flatten.Perm (published ++ s'.root.flatten)) (isFresh : ∀ lock ∈ published, type ≠ .unlock ∧ lock = fresh)
    (freshAddress : ∀ lock ∈ published, lock.address ∈ spares) : Safe (locks.put st owner kind final) := by
  have ms : ∀ lock, lock ∈ final.root.flatten ↔ lock ∈ published ∨ lock ∈ pieces ∨
      lock ∈ (locks.roots st).flatten ∧ met owner kind edit.start edit.stop lock = false := by
    intro lock
    rw [perm.mem_iff, mem_append, cleared.perm.mem_iff, mem_append, mem_filter, Bool.not_eq_true']
  have edited : Edited owner kind st type edit (locks.roots st) final.root pieces fresh := by
    refine ⟨editing.searchable, fun lock mem => ?_, cleared.piece, cleared.apart, covers, freshState⟩
    rcases (ms lock).mp mem with new | isPiece | kept
    · exact .inr (.inr (isFresh lock new))
    · exact .inr (.inl isPiece)
    · exact .inl kept
  refine safe.put (edited.fileSafe (safe.file st) wide range unblocked) editing (fun lock k => ?_) fun lock mem => ?_
  · have notPublished : lock ∉ published := by
      intro new
      rw [(isFresh lock new).2, covers.mine] at k
      cases k
    have notPiece : lock ∉ pieces := by
      intro isPiece
      obtain ⟨_, -, isMet, isPiece⟩ := cleared.piece lock isPiece
      rw [owned_of_sameOwner isPiece.sameOwner, owned_iff.mpr (met_iff.mp isMet).1] at k
      cases k
    have unmet : met owner kind edit.start edit.stop lock = false := by rw [met, k, Bool.false_and]
    rw [ms]
    tauto
  · rcases (ms lock).mp mem with new | isPiece | ⟨kept, -⟩
    · exact .inr (unused _ (freshAddress lock new))
    · exact (cleared.address lock isPiece).imp_right fun isSpare => unused _ isSpare
    · exact .inl ⟨lock, kept, rfl⟩

/-- The tables after a request that found its nodes: `final` is what `replaceOwned` left, with the new lock
if there is one. -/
structure Committed (locks : Locks State Owner) (state : State) (owner : Owner) (kind : UInt8) (type : LockType)
    (edit : Edit) (after final : Table State Owner) (pieces published : List (Lock State Owner))
    (spares rest : List UInt64) (fresh : Lock State Owner) : Prop where
  replaced : replaceOwned owner kind state edit.start edit.stop (extractOwned owner kind edit.start edit.stop (locks.roots state) []).2
      { locks.table state owner kind with
        root := (extractOwned owner kind edit.start edit.stop (locks.roots state) []).1 } spares =
    some (after, rest)
  cleared : Cleared owner kind state edit (locks.elsewhere state owner kind) (locks.roots state) after pieces spares rest
  covers : Covers owner kind type edit fresh
  freshState : fresh.state = state
  editing : Editing owner kind (locks.elsewhere state owner kind) final [] []
  perm : final.root.flatten.Perm (published ++ after.root.flatten)
  isFresh : ∀ lock ∈ published, type ≠ .unlock ∧ lock = fresh
  freshAddress : ∀ lock ∈ published, lock.address ∈ spares
  present : type ≠ .unlock → fresh ∈ published

theorem Safe.set_cases (safe : Safe locks) (pid : Int) (range : start ≤ stop ∧ stop ≤ int64Max) (nodup : (outcomes.filterMap id).Nodup)
    (unused : ∀ addr ∈ outcomes.filterMap id, ∀ st, ∀ lock ∈ (locks.roots st).flatten, lock.address ≠ addr) :
    (type ≠ .unlock ∧ (∃ lock ∈ (locks.roots st).flatten, Blocks owner kind start stop type lock) ∧
      kernelRecordLockSet owner kind st (locks.table st owner kind) pid start stop type outcomes =
        some (-kernelEAGAIN, locks.table st owner kind)) ∨
    ((type ≠ .unlock → ∀ k ∈ (locks.roots st).flatten, ¬ Blocks owner kind start stop type k) ∧
      ∃ edit : Edit, edit.Widened owner kind type start stop (if type = .unlock then 0 else 1) (locks.roots st).flatten ∧
      ((allocateSpares edit.needed outcomes [] = none ∧
          kernelRecordLockSet owner kind st (locks.table st owner kind) pid start stop type outcomes =
            some (-kernelENOLCK, locks.table st owner kind)) ∨
        ∃ spares s' final pieces pub rest fresh, allocateSpares edit.needed outcomes [] = some spares ∧
          (∀ addr ∈ spares, ∀ pos, ∀ k ∈ (locks.roots pos).flatten, k.address ≠ addr) ∧
          Committed locks st owner kind type edit s' final pieces pub spares rest fresh ∧
          kernelRecordLockSet owner kind st (locks.table st owner kind) pid start stop type outcomes = some (0, final))) := by
  have file := safe.file st
  rw [kernelRecordLockSet]
  split
  next blocked =>
    refine .inl ⟨blocked.1, ?_, rfl⟩
    obtain ⟨lock, got⟩ := Option.isSome_iff_exists.mp blocked.2
    exact ⟨lock, conflict_blocks file.searchable got⟩
  rename_i free
  refine .inr ⟨?_, prepareEdit owner kind type (locks.roots st)
    { start := start, stop := stop, needed := if type = .unlock then 0 else 1 },
    prepareEdit_widened file.searchable file.valid file.inOrder range.1 range.2, ?_⟩
  · intro locking k mem
    refine not_blocks_of_conflict_none file.searchable ?_ mem
    simpa [locking, table] using free
  have wide : (prepareEdit owner kind type (locks.roots st)
      { start := start, stop := stop, needed := if type = .unlock then 0 else 1 }).Widened owner kind type
      start stop (if type = .unlock then 0 else 1) (locks.roots st).flatten :=
    prepareEdit_widened file.searchable file.valid file.inOrder range.1 range.2
  have rootEq : (locks.table st owner kind).root = locks.roots st := rfl
  rw [rootEq]
  generalize prepareEdit owner kind type (locks.roots st)
      { start := start, stop := stop, needed := if type = .unlock then 0 else 1 } = edit at wide
  dsimp only
  cases allocated : allocateSpares edit.needed outcomes [] with
  | none => exact .inl ⟨rfl, rfl⟩
  | some spares =>
    obtain ⟨_, among, n, perm⟩ := allocateSpares_spec allocated
    rw [append_nil] at perm
    have fromHeap : ∀ addr ∈ spares, addr ∈ outcomes.filterMap id := fun addr mem => among.subset (perm.mem_iff.mp mem)
    have spareUnused := fun addr mem => unused addr (fromHeap addr mem)
    have supplied := (safe.editing st owner kind).supply (perm.nodup_iff.mpr (nodup.sublist among)) (fun lock mem isSpare => by
        rcases mem_append.mp mem with out | here
        · exact spareUnused _ isSpare _ lock (safe.mem_elsewhere.mp out).2.2 rfl
        · exact spareUnused _ isSpare st lock here rfl)
    obtain ⟨s', pieces, _, res, restCount, cleared⟩ := replaceOwned_cleared file supplied wide range.1 (perm.length_eq.trans n)
    rw [rootEq] at res
    dsimp only
    rw [commitEdit, rootEq]
    dsimp only
    rw [res]
    dsimp only
    have covers : ∀ addr, Covers owner kind type edit (⟨addr, st, owner, kind, pid, type, edit.start, edit.stop⟩ : Lock State Owner) :=
      fun _ => ⟨owned_iff.mpr ⟨rfl, rfl⟩, rfl, rfl, rfl⟩
    by_cases locking : type = .unlock
    · rw [if_neg (by simp [locking])]
      rw [if_pos locking] at restCount
      have restNil := length_eq_zero_iff.mp restCount
      subst restNil
      exact .inr ⟨spares, s', s', pieces, [], [], _, rfl, spareUnused,
        ⟨res, cleared, covers 0, rfl, cleared.editing, .refl _, by simp, by simp, fun wrong => absurd locking wrong⟩, rfl⟩
    rw [if_pos locking]
    rw [if_neg locking] at restCount
    obtain ⟨addr, restOne⟩ := length_eq_one_iff.mp restCount
    subst restOne
    obtain ⟨editing, new⟩ := cleared.editing.publish _ rfl (covers addr).mine rfl
    refine .inr ⟨spares, s', _, pieces, [_], [addr], _, rfl, spareUnused,
      ⟨res, cleared, covers addr, rfl, editing, new, ?_, ?_, fun _ => mem_singleton_self _⟩,
      rfl⟩
    · exact fun lock mem => ⟨locking, mem_singleton.mp mem⟩
    intro lock mem
    rw [mem_singleton.mp mem]
    exact cleared.rest_subset addr (.head _)

theorem Safe.set (safe : Safe locks) (pid : Int) (ok : (Request.set st owner kind pid start stop type outcomes).Allowed locks) :
    ∃ res t, kernelRecordLockSet owner kind st (locks.table st owner kind) pid start stop type
        outcomes = some (res, t) ∧ Safe (locks.put st owner kind t) := by
  obtain ⟨range, ne, unused⟩ := ok
  rcases safe.set_cases pid range.2 ne unused with ⟨_, _, done⟩ | ⟨unblocked, _, wide, answer⟩
  · exact ⟨_, _, done, by rwa [locks.put_table]⟩
  rcases answer with ⟨_, done⟩ | ⟨_, _, _, _, pub, _, _, _, spareUnused, committed, done⟩
  · exact ⟨_, _, done, by rwa [locks.put_table]⟩
  exact ⟨_, _, done, committed.cleared.safe safe pub wide range unblocked spareUnused committed.covers
    committed.freshState committed.editing committed.perm committed.isFresh committed.freshAddress⟩

/-- The state of the loop over the owner's list: the owner's locks in the tree
are those still to come. -/
structure Releasing (owner : Owner) (kind : UInt8) (state : State) (elsewhere : List (Lock State Owner))
    (root : LockTree State Owner) (next : List (Lock State Owner)) (table : Table State Owner) : Prop where
  editing : Editing owner kind elsewhere table [] []
  remaining : (table.root.flatten.filter (owned owner kind)).Perm (next.filter fun lock => lock.state = state)
  subset : ∀ lock ∈ table.root.flatten, lock ∈ root.flatten
  others : ∀ lock ∈ root.flatten, owned owner kind lock = false → lock ∈ table.root.flatten

theorem Releasing.run {next : List (Lock State Owner)} (releasing : Releasing owner kind st away root next t) :
    ∃ s', releaseOwned st next t = some s' ∧ Releasing owner kind st away root [] s' := by
  induction next generalizing t with
  | nil => exact ⟨t, rfl, releasing⟩
  | cons lock next ih =>
    rw [releaseOwned]
    by_cases here : lock.state = st
    · rw [if_pos here]
      have rest := releasing.remaining
      rw [filter_cons_of_pos (by simpa using here)] at rest
      obtain ⟨mem, mine⟩ := mem_filter.mp (rest.mem_iff.mpr (.head _))
      obtain ⟨_, _, gone, unlinked, perm, editing⟩ := releasing.editing.remove mem mine
      rw [gone, unlinked]
      refine ih ⟨editing, ?_, fun k otherIn => ?_, fun k otherIn otherOwner => ?_⟩
      · have mineAfter := (perm.filter (owned owner kind)).trans (.of_eq (filter_cons_of_pos mine))
        exact (mineAfter.symm.trans rest).cons_inv
      · exact releasing.subset k (perm.mem_iff.mpr (.tail _ otherIn))
      rcases mem_cons.mp (perm.mem_iff.mp (releasing.others k otherIn otherOwner)) with eq | later
      · rw [eq, mine] at otherOwner
        cases otherOwner
      · exact later
    · rw [if_neg here]
      refine ih ⟨releasing.editing, ?_, releasing.subset, releasing.others⟩
      have rest := releasing.remaining
      rwa [filter_cons_of_neg (by simpa using here)] at rest

theorem Safe.release (safe : Safe locks) (st : State) (owner : Owner) (kind : UInt8) :
    ∃ t, kernelRecordLockRelease st (locks.table st owner kind) = some t ∧ Safe (locks.put st owner kind t) ∧
      (∀ lock ∈ t.root.flatten, lock ∈ (locks.roots st).flatten) ∧ ∀ lock ∈ t.root.flatten, owned owner kind lock = false := by
  have editing := safe.editing st owner kind
  have file := safe.file st
  have head := editing.ownerHead
  rw [append_nil] at head
  have rest : ((locks.roots st).flatten.filter (owned owner kind)).Perm ((locks.owners owner kind).filter fun lock => lock.state = st) := by
    refine List.Perm.trans ?_ (head.filter _).symm
    have gone : (locks.elsewhere st owner kind).filter (fun lock => lock.state = st) = [] :=
      filter_eq_nil_iff.mpr fun lock mem => by simpa using (safe.mem_elsewhere.mp mem).2.1
    have kept : ((locks.roots st).flatten.filter (owned owner kind)).filter
        (fun lock => lock.state = st) = (locks.roots st).flatten.filter (owned owner kind) :=
      filter_eq_self.mpr fun lock mem => by
        simpa using file.placed lock (mem_filter.mp mem).1
    rw [List.filter_append, gone]
    exact .of_eq kept.symm
  obtain ⟨s', freed, done⟩ := Releasing.run ⟨editing, rest, fun _ mem => mem, fun _ mem _ => mem⟩
  have none_ := filter_eq_nil_iff.mp done.remaining.eq_nil
  refine ⟨s', freed, safe.put (file.subset done.editing.searchable done.subset) done.editing
    (fun lock k => ⟨done.subset lock, fun mem => done.others lock mem k⟩)
    (fun lock mem => .inl ⟨lock, done.subset lock mem, rfl⟩), done.subset, fun lock mem => ?_⟩
  simpa using none_ lock mem

theorem Safe.call (safe : Safe locks) (ok : req.Allowed locks) : ∃ res next, locks.call req = some (res, next) ∧ Safe next := by
  cases req with
  | set st owner kind pid start stop type outcomes =>
    obtain ⟨res, t, done, next⟩ := safe.set pid ok
    exact ⟨res, _, by rw [Locks.call, done]; rfl, next⟩
  | release st owner kind =>
    obtain ⟨t, done, next, -⟩ := safe.release st owner kind
    exact ⟨0, _, by rw [Locks.call, done]; rfl, next⟩

theorem allocateSpares_all (fresh spares : List UInt64) :
    allocateSpares fresh.length (fresh.map some) spares = some (fresh.reverse ++ spares) := by
  induction fresh generalizing spares with
  | nil => rfl
  | cons addr fresh ih => simp [allocateSpares, ih]

/-- The call as a whole, when its nodes come without an interruption. -/
def SetCall.whole (call : SetCall State Owner) (locks : Locks State Owner) (outcomes : List (Option UInt64)) :
    Option (Int × Table State Owner) :=
  kernelRecordLockSet call.owner call.kind call.state (call.table locks) call.pid call.start call.stop call.type outcomes

omit [DecidableEq State] in
theorem SetCall.whole_free {call : SetCall State Owner} (free : ¬ call.Blocked locks) (enough : spares.length = (call.plan locks).needed) :
    SetCall.whole call locks (spares.reverse.map some) =
      (call.commit locks (call.plan locks) spares).map fun t => (0, t) := by
  have allocated := allocateSpares_all spares.reverse []
  rw [length_reverse, reverse_reverse, append_nil, enough] at allocated
  rw [SetCall.whole, kernelRecordLockSet, if_neg (by exact free)]
  simp only [SetCall.plan] at allocated
  simp only [SetCall.table, Locks.table, allocated]
  rfl

variable {Task : Type} [DecidableEq Task] {s : Shared State Owner Task}

/-- The nodes of a call are in no tree and none came twice. -/
def Unused (locks : Locks State Owner) (spares : List UInt64) : Prop :=
  spares.Nodup ∧ ∀ address ∈ spares, ∀ state, ∀ lock ∈ (locks.roots state).flatten, lock.address ≠ address

omit [DecidableEq State] [DecidableEq Owner] in
theorem Unused.allowed {call : SetCall State Owner} (unused : Unused locks spares) : (Request.set call.state call.owner
    call.kind call.pid call.start call.stop call.type (spares.reverse.map some)).Allowed locks := by
  have handed : (spares.reverse.map some).filterMap id = spares.reverse := by simp [filterMap_map]
  rw [Request.Allowed, handed]
  exact ⟨call.range, nodup_reverse.mpr unused.1, fun addr mem => unused.2 addr (mem_reverse.mp mem)⟩

def SharedStep.Allowed (s : Shared State Owner Task) : SharedStep State Owner Task → Prop
  | .enter task _ => s.pending task = none
  | .resume task outcome => ∀ waiting, s.pending task = some waiting → Unused s.locks (outcome.toList ++ waiting.spares)
  | .release _ _ _ => True

/-- The conflict test and the plan come out as they did before the call waited. -/
structure Pending.Current (waiting : Pending State Owner) (locks : Locks State Owner) : Prop where
  free : ¬ waiting.call.Blocked locks
  plan : waiting.edit = waiting.call.plan locks

omit [DecidableEq State] in
theorem Pending.Current.length_le {waiting : Pending State Owner} (current : waiting.Current locks) (fresh : UInt64) :
    (fresh :: waiting.spares).length ≤ (waiting.call.plan locks).needed := current.plan ▸ waiting.waits

def SharedStep.Undisturbed (s : Shared State Owner Task) : SharedStep State Owner Task → Prop
  | .resume task _ => ∀ waiting, s.pending task = some waiting → waiting.Current s.locks
  | _ => True

/-- The runs whose steps are all as `P` asks. -/
inductive Shared.Reachable (P : Shared State Owner Task → SharedStep State Owner Task → Prop) :
    Shared State Owner Task → Prop where
  | empty : Reachable P { locks := Locks.empty, pending := fun _ => none }
  | step {s next : Shared State Owner Task} {answer : Option Int} (step : SharedStep State Owner Task)
      (reachable : Reachable P s) (allowed : step.Allowed s) (meets : P s step)
      (called : s.step step = some (answer, next)) : Reachable P next

/-- A call that goes on either waits for another node or is the whole call on the tables of now. -/
theorem Safe.proceed {call : SetCall State Owner} (safe : Safe s.locks) (task : Task) (free : ¬ call.Blocked s.locks)
    (few : spares.length ≤ (call.plan s.locks).needed) (unused : Unused s.locks spares) :
    (spares.length < (call.plan s.locks).needed ∧ ∃ next, next.locks = s.locks ∧
      s.proceed task call (call.plan s.locks) spares = some (none, next)) ∨
    spares.length = (call.plan s.locks).needed ∧ ∃ t next, next.locks = call.put s.locks t ∧
      call.whole s.locks (spares.reverse.map some) = some (0, t) ∧ Safe (call.put s.locks t) ∧
      s.proceed task call (call.plan s.locks) spares = some (some 0, next) := by
  rw [Shared.proceed]
  split
  next waits => exact .inl ⟨waits, _, by rfl, rfl⟩
  next full =>
    have enough : spares.length = (call.plan s.locks).needed := by omega
    obtain ⟨res, t, done, after⟩ := safe.set call.pid unused.allowed
    have eq := SetCall.whole_free free enough
    obtain ⟨t', committed, same⟩ := Option.map_eq_some_iff.mp (eq.symm.trans done)
    cases same
    exact .inr ⟨enough, t, _, rfl, done, after, by rw [committed]; rfl⟩

theorem Safe.proceed_keeps {call : SetCall State Owner} (safe : Safe s.locks) (task : Task) (free : ¬ call.Blocked s.locks)
    (few : spares.length ≤ (call.plan s.locks).needed) (unused : Unused s.locks spares) :
    ∃ answer next, s.proceed task call (call.plan s.locks) spares = some (answer, next) ∧ Safe next.locks := by
  rcases safe.proceed task free few unused with ⟨_, next, same, done⟩ | ⟨_, _, next, same, _, after, done⟩
  · exact ⟨_, next, done, same ▸ safe⟩
  · exact ⟨_, next, done, same ▸ after⟩

theorem Safe.step (safe : Safe s.locks) {step : SharedStep State Owner Task} (ok : step.Allowed s)
    (steady : step.Undisturbed s) : ∃ answer next, s.step step = some (answer, next) ∧ Safe next.locks := by
  cases step with
  | enter task call =>
    rw [Shared.step]
    split
    next => exact ⟨_, _, rfl, safe⟩
    next free => exact safe.proceed_keeps task free (Nat.zero_le _) ⟨nodup_nil, by simp⟩
  | resume task outcome =>
    cases held : s.pending task with
    | none => exact ⟨none, s, by simp only [Shared.step, held], safe⟩
    | some waiting =>
      cases outcome with
      | none => exact ⟨_, { s with pending := Function.update s.pending task none }, by simp only [Shared.step, held]; rfl, safe⟩
      | some fresh =>
        have current := steady waiting held
        simp only [Shared.step, held]
        rw [current.plan]
        exact safe.proceed_keeps task current.free (current.length_le fresh) (ok waiting held)
  | release st owner kind =>
    obtain ⟨t, done, after, -⟩ := safe.release st owner kind
    exact ⟨some 0, _, by rw [Shared.step, done]; rfl, after⟩

theorem Shared.Reachable.safe (run : Shared.Reachable SharedStep.Undisturbed s) : Safe s.locks := by
  induction run with
  | empty => exact Safe.empty
  | step _ _ ok steady called safe =>
    obtain ⟨_, _, done, after⟩ := safe.step ok steady
    rw [called] at done
    cases done
    exact after

/-- Along a run in which no call is disturbed, no call traps and the trees and lists are as the search for conflicts
assumes. -/
theorem recordLocks_safe (reachable : Shared.Reachable SharedStep.Undisturbed s) :
    (∀ step : SharedStep State Owner Task, step.Allowed s → step.Undisturbed s → (s.step step).isSome) ∧
    (∀ state, (∀ a ∈ (s.locks.roots state).flatten, ∀ b ∈ (s.locks.roots state).flatten,
        ¬ (a.owner = b.owner ∧ a.kind = b.kind) → a.start ≤ b.stop → b.start ≤ a.stop → a.type ≠ .write ∧ b.type ≠ .write) ∧
      (∀ a ∈ (s.locks.roots state).flatten, ∀ b ∈ (s.locks.roots state).flatten, a ≠ b →
        a.owner = b.owner → a.kind = b.kind → (a.stop < b.start ∨ b.stop < a.start) ∧
          (a.type = b.type → a.stop + 1 ≠ b.start ∧ b.stop + 1 ≠ a.start)) ∧
      (s.locks.roots state).flatten.Pairwise (fun a b =>
        a.start < b.start ∨ a.start = b.start ∧ a.address < b.address) ∧
      (s.locks.roots state).Balanced ∧ (s.locks.roots state).height < 2 ^ 7 ∧
      (s.locks.roots state).ReachExact Lock.stop) ∧
    ∀ owner kind, (s.locks.owners owner kind).Nodup ∧ ∀ lock, lock ∈ s.locks.owners owner kind ↔
      (lock.owner = owner ∧ lock.kind = kind) ∧ ∃ state, lock ∈ (s.locks.roots state).flatten := by
  have safe := reachable.safe
  refine ⟨fun step ok steady => ?_, fun state => ⟨?_, ?_, ?_, ?_, safe.height_lt state, ?_⟩, ?_⟩
  · obtain ⟨_, _, done, -⟩ := safe.step ok steady
    rw [done]
    rfl
  · intro a aIn b bIn ne first snd
    have clash := (safe.file state).compatible a aIn b bIn ne
    exact ⟨fun writes => clash ⟨first, snd, .inl writes⟩, fun writes => clash ⟨first, snd, .inr writes⟩⟩
  · intro a aIn b bIn ne sameOwner sameKind
    have apart := (safe.file state).apart a aIn b bIn ne ⟨sameOwner, sameKind⟩
    have aRange := ((safe.file state).valid a aIn).start_le
    have bRange := ((safe.file state).valid b bIn).start_le
    refine ⟨apart.1, fun eq => ?_⟩
    have gap := apart.2 eq
    omega
  · exact (safe.file state).searchable.ordered.imp fun ord => before_iff.mp ord
  · exact (safe.file state).searchable.wellFormed.balanced
  · exact (safe.file state).searchable.wellFormed.reachExact
  · refine fun owner kind => ⟨safe.owners_nodup owner kind, fun lock => (safe.mem_owners owner kind lock).trans ?_⟩
    refine and_congr_right fun _ => ⟨fun mem => ⟨_, mem⟩, fun ⟨state, mem⟩ => ?_⟩
    rwa [(safe.file state).placed lock mem]

end

def oneLock (type : LockType) (start stop : Int) : Locks Unit Bool :=
  Locks.empty.put () false 0 ⟨.node .nil ⟨64, (), false, 0, 7, type, start, stop⟩ 1 stop .nil, [⟨64, (), false, 0, 7, type, start, stop⟩]⟩

theorem oneLock_unused {type : LockType} {start stop : Int} : ∀ addr ∈ [some (128 : UInt64)].filterMap id, ∀ st,
    ∀ lock ∈ ((oneLock type start stop).roots st).flatten, lock.address ≠ addr := by
  intro addr mem st lock lockIn
  simp only [oneLock, put_roots_same, AvlTree.flatten, nil_append, mem_singleton] at lockIn
  rw [lockIn, mem_singleton.mp mem]
  exact (by decide : (64 : UInt64) ≠ 128)


theorem oneLock_safe : Safe (oneLock .read 3 9) := by
  have ok : (Request.set () false 0 7 3 9 .read [some 64]).Allowed (empty : Locks Unit Bool) := ⟨by decide, by decide, nofun⟩
  have called : empty.call (Request.set () false 0 7 3 9 .read [some 64]) = some (0, oneLock .read 3 9) := rfl
  obtain ⟨_, _, done, safe⟩ := Safe.empty.call ok
  cases called.symm.trans done
  exact safe

theorem Unused.single {locks : Locks Unit Bool} {addr : UInt64}
    (free : ∀ lock ∈ (locks.roots ()).flatten, lock.address ≠ addr) : Unused locks [addr] := by
  refine ⟨nodup_singleton _, fun other mem st lock lockIn => ?_⟩
  rw [mem_singleton.mp mem]
  exact free lock lockIn

def callOf (owner : Bool) (type : LockType) (start stop : Int)
    (range : 0 ≤ start ∧ start ≤ stop ∧ stop ≤ int64Max) : SetCall Unit Bool :=
  ⟨(), owner, 0, 7, start, stop, type, range⟩

/-- Two owners read overlapping ranges of one file; each enters while the other waits for its node. -/
theorem recordLocks_safe_two_readers : ∃ s : Shared Unit Bool Bool, Shared.Reachable SharedStep.Undisturbed s ∧
      ((s.locks.roots ()).flatten.map fun lock => (lock.owner, lock.start, lock.stop)) =
        [(true, 0, 4), (false, 3, 9)] ∧ (s.locks.roots ()).Balanced := by
  have first := Shared.Reachable.step (.enter false (callOf false .read 3 9 (by decide)))
    (.empty (P := SharedStep.Undisturbed)) rfl trivial rfl
  have both := first.step (.enter true (callOf true .read 0 4 (by decide))) rfl trivial rfl
  have edited := both.step (.resume false (some 64)) (by
    rintro waiting ⟨⟩
    exact .single (by decide)) (by
    rintro waiting ⟨⟩
    exact ⟨by decide, rfl⟩) rfl
  have run := edited.step (.resume true (some 128)) (by
    rintro waiting ⟨⟩
    exact .single (by decide +kernel)) (by
    rintro waiting ⟨⟩
    exact ⟨by decide, by decide +kernel⟩) rfl
  exact ⟨_, run, by decide +kernel, ((recordLocks_safe run).2.1 ()).2.2.2.1⟩

/-- Both owners pass the conflict test before either has its node: both hold the write lock. -/
theorem writers_overlap : ∃ s : Shared Unit Bool Bool, Shared.Reachable (fun _ _ => True) s ∧
      ((s.locks.roots ()).flatten.map fun lock => (lock.owner, lock.type, lock.start, lock.stop)) =
        [(false, .write, 0, 9), (true, .write, 0, 9)] := by
  have first := Shared.Reachable.step (.enter false (callOf false .write 0 9 (by decide)))
    (.empty (P := fun _ _ => True)) rfl trivial rfl
  have both := first.step (.enter true (callOf true .write 0 9 (by decide))) rfl trivial rfl
  have edited := both.step (.resume false (some 64)) (by
    rintro waiting ⟨⟩
    exact .single (by decide)) trivial rfl
  have run := edited.step (.resume true (some 128)) (by
    rintro waiting ⟨⟩
    exact .single (by decide +kernel)) trivial rfl
  exact ⟨_, run, by decide +kernel⟩

end BoarOS.RecordLock
