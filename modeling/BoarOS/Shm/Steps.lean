import BoarOS.Shm.Holders

namespace BoarOS.Shm
open Function List Shm.System Segment

/-! # What each function leaves of the table -/

variable {s s' : System} {slot : Slot} {seg : Segment} {a : Attachment} {addr obj : Nat}

theorem AttachmentsOk.no_fragment (ok : AttachmentsOk s) (free : ∀ a ∈ s.attachments, a.segment ≠ slot) :
    s.fragments.countP (fun f => f.slot = slot) = 0 := by
  refine countP_eq_zero.mpr fun f fIn => ?_
  obtain ⟨b, bIn, -, bSlot⟩ := ok.fragment f fIn
  simpa [← bSlot] using free b bIn

theorem AttachmentsOk.setSegment_free (ok : AttachmentsOk s) (free : ∀ a ∈ s.attachments, a.segment ≠ slot)
    (atts : seg.attachments = 0) (nattch : seg.nattch = 0) : AttachmentsOk (s.setSegment slot seg) := by
  refine ⟨ok.distinct, fun b bIn => ?_, ok.references, ok.referenced, ok.owner, ok.fragment, fun k => ?_, fun k => ?_, ok.requested⟩
  · rw [setSegment_other _ _ (free b bIn)]
    exact ok.valid b bIn
  · by_cases eq : k = slot
    · subst eq
      rw [setSegment_same, atts]
      exact (countP_eq_zero.mpr fun b bIn => by simpa using free b bIn).symm
    · rw [setSegment_other _ _ eq]
      exact ok.attachments_eq k
  · by_cases eq : k = slot
    · subst eq
      rw [setSegment_same, nattch]
      exact (ok.no_fragment free).symm
    · rw [setSegment_other _ _ eq]
      exact ok.nattch_eq k

theorem AttachmentsOk.setSegment_quiet (ok : AttachmentsOk s) (same : SameSegment (s.segments slot) seg)
    (atts : seg.attachments = (s.segments slot).attachments)
    (nattch : seg.nattch = (s.segments slot).nattch) : AttachmentsOk (s.setSegment slot seg) := by
  refine ⟨ok.distinct, fun b bIn => ok.valid_setSegment same bIn, ok.references, ok.referenced, ok.owner,
    ok.fragment, fun k => ?_, fun k => ?_, ok.requested⟩
  · rw [setSegment_field Segment.attachments atts]
    exact ok.attachments_eq k
  · rw [setSegment_field Segment.nattch nattch]
    exact ok.nattch_eq k

theorem AttachmentsOk.free_of_count (ok : AttachmentsOk s) (none_ : (s.segments slot).attachments = 0)
    (mem : a ∈ s.attachments) : a.segment ≠ slot := by
  intro here
  have cnt := ok.attachments_eq slot
  rw [none_] at cnt
  simpa [here] using countP_eq_zero.mp cnt.symm a mem

theorem nextSeq_eq (dead : Nat) : nextSeq (1 + dead % 65535) = 1 + (dead + 1) % 65535 := by
  rw [nextSeq]
  split <;> omega

theorem kernelMemoryObjectRelease_some (freed : kernelMemoryObjectRelease s obj = some s') :
    0 < s.memory obj ∧ s' = { s with memory := update s.memory obj (s.memory obj - 1) } := by
  rw [kernelMemoryObjectRelease] at freed
  split at freed
  · cases freed
  cases freed
  exact ⟨by omega, rfl⟩

def System.marked (s : System) (slot : Slot) : Prop := (s.segments slot).markedForDeletion = true

/-- How a step treats the segments there were: a segment whose removal is due
stays marked, or is destroyed. -/
def Evolves (s after : System) (removing : Slot → Prop) : Prop :=
  (∀ slot, s.destroyed slot ≤ after.destroyed slot) ∧ ∀ slot, (s.segments slot).active = true →
    (after.destroyed slot = s.destroyed slot ∧ (after.segments slot).active = true ∧
      ((after.segments slot).markedForDeletion = true ↔ removing slot)) ∨
    (after.destroyed slot = s.destroyed slot + 1 ∧ (after.segments slot).active = false ∧ removing slot)

theorem Evolves.quiet (dead : s'.destroyed = s.destroyed) (act : ∀ slot, (s'.segments slot).active = (s.segments slot).active)
    (marked : ∀ slot, (s'.segments slot).markedForDeletion = (s.segments slot).markedForDeletion) : Evolves s s' s.marked :=
  ⟨fun _ => by rw [dead], fun slot here =>
    .inl ⟨by rw [dead], (act slot).trans here, by rw [marked slot, System.marked]⟩⟩

theorem ownersMove_cons (s : System) (addr : Nat) (slot : Slot) : HoldersMove s addr slot (addr :: s.owners) s.fragments :=
  ⟨fun _ ne => count_cons_of_ne (Ne.symm ne), fun _ _ => rfl, fun _ _ => rfl, fun _ mem => .inl mem⟩

theorem ownersMove_erase (s : System) (addr : Nat) (slot : Slot) : HoldersMove s addr slot (s.owners.erase addr) s.fragments :=
  ⟨fun _ ne => count_erase_of_ne ne, fun _ _ => rfl, fun _ _ => rfl, fun _ mem => .inl mem⟩

theorem fragmentsMove_cons (s : System) (mm addr : Nat) (slot : Slot) :
    HoldersMove s addr slot s.owners (⟨mm, addr, slot⟩ :: s.fragments) := by
  refine ⟨fun _ _ => rfl, fun k ne => ?_, fun k ne => ?_, fun f mem => ?_⟩
  · simp [Ne.symm ne]
  · simp [Ne.symm ne]
  rcases mem_cons.mp mem with here | pre
  · exact .inr ⟨here ▸ rfl, here ▸ rfl⟩
  · exact .inl pre

theorem fragmentsMove_erase {f : Fragment} (mem : f ∈ s.fragments) : HoldersMove s f.attachment f.slot s.owners (s.fragments.erase f) := by
  have perm := perm_cons_erase mem
  refine ⟨fun _ _ => rfl, fun k ne => ?_, fun k ne => ?_, fun g gIn => .inl (mem_of_mem_erase gIn)⟩
  · rw [perm.countP_eq (fun g => decide (g.attachment = k))]
    simp [Ne.symm ne]
  · rw [perm.countP_eq (fun g => decide (g.slot = k))]
    simp [Ne.symm ne]

section
variable [PageGeometry]

structure Emptied (s : System) (slot : Slot) (object : Nat) (after : System) : Prop where
  segments : after.segments = update s.segments slot (emptySegment { s.segments slot with lockAccount := none })
  attachments : after.attachments = s.attachments
  memory : after.memory = update s.memory object (s.memory object - 1)
  memory_pos : 0 < s.memory object
  external : after.external = s.external
  locked : ∀ account, after.lockedPages account + (s.segments slot).charge account = s.lockedPages account
  gets : after.gets = s.gets
  ats : after.ats = s.ats
  owners : after.owners = s.owners
  fragments : after.fragments = s.fragments
  destroyed : after.destroyed = update s.destroyed slot (s.destroyed slot + 1)
  requests : after.requests = s.requests

theorem shmUnlock_some (unlocked : shmUnlock s slot = some s') :
    (∀ acc, s'.lockedPages acc + (s.segments slot).charge acc = s.lockedPages acc) ∧
      s' = { s.setSegment slot { s.segments slot with lockAccount := none } with lockedPages := s'.lockedPages } := by
  rw [shmUnlock] at unlocked
  split at unlocked
  next free =>
    cases unlocked
    refine ⟨fun acc => by simp [charge, free], ?_⟩
    have eq : { s.segments slot with lockAccount := none } = s.segments slot := by rw [← free]
    rw [eq, setSegment_self]
  rename_i acc held
  rw [kernelUidAccountShmUnlock] at unlocked
  split at unlocked
  · cases unlocked
  rename_i enough
  cases unlocked
  refine ⟨fun k => ?_, rfl⟩
  rw [charge, held]
  by_cases eq : k = acc
  · subst eq
    simp only [update_self, if_true]
    simp only [setSegment] at enough ⊢
    omega
  · simp only [update_of_ne eq, Option.some.injEq, Ne.symm eq, if_false, add_zero]
    rfl

theorem kernelShmDestroySegmentLocked_some (act : (s.segments slot).active = true) (memory : (s.segments slot).memory = some obj)
    (dead : kernelShmDestroySegmentLocked s slot = some s') : Emptied s slot obj s' := by
  rw [kernelShmDestroySegmentLocked, if_neg (by simp [act])] at dead
  split at dead
  · cases dead
  rename_i unlocked unlock
  obtain ⟨locked, unlockedEq⟩ := shmUnlock_some unlock
  have segment : unlocked.segments slot = { s.segments slot with lockAccount := none } := by
    rw [unlockedEq]
    exact setSegment_same _ _ _
  rw [segment] at dead
  simp only [memory] at dead
  obtain ⟨_, release, afterEq⟩ := Option.map_eq_some_iff.mp dead
  obtain ⟨pos, releasedEq⟩ := kernelMemoryObjectRelease_some release
  subst afterEq
  rw [releasedEq, unlockedEq] at *
  refine ⟨?_, rfl, rfl, pos, rfl, locked, rfl, rfl, rfl, rfl, rfl, rfl⟩
  simp [setSegment]

theorem Core.emptied (core : Core s) (act : (s.segments slot).active = true) (memory : (s.segments slot).memory = some obj)
    (none_ : (s.segments slot).attachments = 0) (bare : Emptied s slot obj s') : Core s' := by
  have free := fun b bIn => core.attachments.free_of_count none_ (a := b) bIn
  have ok : AttachmentsOk (s.setSegment slot (emptySegment { s.segments slot with lockAccount := none })) :=
    core.attachments.setSegment_free free rfl rfl
  have segments : s'.segments = (s.setSegment slot (emptySegment { s.segments slot with lockAccount := none })).segments := bare.segments
  refine ⟨fun k => ?_, ?_, ⟨fun k => ?_, fun acc => ?_⟩, ?_⟩
  · rw [segments, bare.destroyed]
    by_cases eq : k = slot
    · subst eq
      rw [setSegment_same, update_self]
      refine ⟨?_, nofun, nofun, fun _ => ⟨rfl, rfl, rfl, rfl, rfl⟩, fun _ => rfl⟩
      change nextSeq (s.segments k).seq = _
      rw [(core.slot k).seq_eq, nextSeq_eq]
    · rw [setSegment_other _ _ eq, update_of_ne eq]
      exact core.slot k
  · constructor <;> simp only [segments, bare.attachments, bare.owners, bare.fragments, bare.requests]
    exacts [ok.distinct, ok.valid, ok.references, ok.referenced, ok.owner, ok.fragment, ok.attachments_eq, ok.nattch_eq, ok.requested]
  · have cnt := core.accounted.memory_eq k
    have sum := sum_refers_setSegment s slot (emptySegment { s.segments slot with lockAccount := none }) k
    rw [bare.memory, segments, bare.attachments, bare.external]
    have gone : (emptySegment { s.segments slot with lockAccount := none }).refers k = 0 := rfl
    by_cases eq : k = obj
    · subst eq
      have refers : (s.segments slot).refers k = 1 := by rw [refers, if_pos memory]
      rw [update_self]
      omega
    have refers : (s.segments slot).refers k = 0 := by
      rw [refers, if_neg (by simpa [memory] using Ne.symm eq)]
    rw [update_of_ne eq]
    omega
  · have cnt := core.accounted.locked_eq acc
    have sum := sum_charge_setSegment s slot (emptySegment { s.segments slot with lockAccount := none }) acc
    have left := bare.locked acc
    have gone : (emptySegment { s.segments slot with lockAccount := none }).charge acc = 0 := rfl
    rw [segments]
    omega
  · refine core.keys.of_subset fun k otherActive otherFree _ => ?_
    rw [segments] at *
    by_cases eq : k = slot
    · subst eq
      rw [setSegment_same] at otherActive
      cases otherActive
    · rw [setSegment_other _ _ eq] at *
      exact ⟨otherActive, otherFree, rfl⟩

variable {owners : List Nat} {frags : List Fragment} {nattch : Nat}

theorem Core.nattch_zero (core : Core s) (none_ : (s.segments slot).attachments = 0) : (s.segments slot).nattch = 0 := by
  rw [core.attachments.nattch_eq]
  exact core.attachments.no_fragment fun b bIn => core.attachments.free_of_count none_ bIn

theorem Consistent.rehold (con : Consistent s) (mem : a ∈ s.attachments)
    (move : HoldersMove s a.address a.segment owners frags) {refs : Nat}
    (nattchEq : nattch = frags.countP (fun f => f.slot = a.segment))
    (n : refs = owners.count a.address + frags.countP (fun f => f.attachment = a.address)) (pos : 0 < refs)
    (eq : s' = { (s.setSegment a.segment ((s.segments a.segment).counts (s.segments a.segment).attachments
        nattch)).putAttachment { a with references := refs } with
      owners := owners, fragments := frags }) : Consistent s' ∧ Evolves s s' s.marked := by
  subst eq
  have segment : ∀ k, ((s.setSegment a.segment ((s.segments a.segment).counts (s.segments a.segment).attachments nattch)).segments k) =
      (s.segments k).counts (s.segments k).attachments (if k = a.segment then nattch else (s.segments k).nattch) := by
    intro k
    by_cases eq : k = a.segment
    · subst eq
      rw [setSegment_same, if_pos rfl]
    · rw [setSegment_other _ _ eq, if_neg eq]
      rfl
  refine ⟨⟨con.core.replace mem move n (.inr ⟨rfl, pos⟩) rfl nattchEq fun obj => ?_, fun slot => ?_⟩,
    Evolves.quiet rfl (fun slot => ?_) fun slot => ?_⟩
  · change s.memory obj = _
    simp [countP_singleton]
  · change ((s.setSegment a.segment _).segments slot).active = true → ((s.setSegment a.segment _).segments slot).markedForDeletion = true →
      ((s.setSegment a.segment _).segments slot).attachments ≠ 0
    rw [segment slot]
    exact con.kept slot
  · exact (congrArg active (segment slot)).trans rfl
  · exact (congrArg markedForDeletion (segment slot)).trans rfl

theorem Emptied.destroyed_le (bare : Emptied s slot obj s') (other : Slot) : s.destroyed other ≤ s'.destroyed other := by
  rw [bare.destroyed]
  by_cases eq : other = slot
  · subst eq
    rw [update_self]
    exact Nat.le_succ _
  · rw [update_of_ne eq]

theorem Consistent.emptied (con : Core s) (kept : ∀ k, k ≠ slot → (s.segments k).active = true → (s.segments k).markedForDeletion = true →
      (s.segments k).attachments ≠ 0) (act : (s.segments slot).active = true) (memory : (s.segments slot).memory = some obj)
    (none_ : (s.segments slot).attachments = 0) (bare : Emptied s slot obj s') : Consistent s' := by
  refine ⟨con.emptied act memory none_ bare, fun k => ?_⟩
  rw [bare.segments]
  by_cases eq : k = slot
  · subst eq
    rw [update_self]
    exact nofun
  · rw [update_of_ne eq]
    exact kept k eq

theorem kernelShmAttachmentRelease_some (got : s.attachment? a.address = some a)
    (freed : kernelShmAttachmentRelease s a.address = some s') :
    (a.references ≠ 1 ∧ s' = s.putAttachment { a with references := a.references - 1 }) ∨
    (a.references = 1 ∧ if (s.segments a.segment).nattch = 0 ∧ (s.segments a.segment).attachments - 1 = 0 ∧
          (s.segments a.segment).markedForDeletion then
        kernelShmDestroySegmentLocked (s.detached a ((s.segments a.segment).attachments - 1)
          (s.segments a.segment).nattch) a.segment = some s'
      else
        s' = s.detached a ((s.segments a.segment).attachments - 1) (s.segments a.segment).nattch) := by
  rw [kernelShmAttachmentRelease, got] at freed
  simp only at freed
  split at freed
  · cases freed
  rename_i valid
  have pos : a.references ≠ 0 := by
    intro zero
    simp [attachmentValid, zero] at valid
  split at freed
  · cases freed
    exact .inl ⟨by omega, rfl⟩
  refine .inr ⟨by omega, ?_⟩
  split at freed
  · cases freed
  rename_i dropped memoryReleased
  obtain ⟨-, droppedEq⟩ := kernelMemoryObjectRelease_some memoryReleased
  subst droppedEq
  split at freed
  next due =>
    rw [if_pos due]
    exact freed
  rename_i stays
  rw [if_neg stays]
  cases freed
  rfl

theorem kernelShmDestroySegmentLocked_holders (dead : kernelShmDestroySegmentLocked s slot = some s') :
    s'.owners = s.owners ∧ s'.fragments = s.fragments := by
  rw [kernelShmDestroySegmentLocked] at dead
  split at dead
  · cases dead
    exact ⟨rfl, rfl⟩
  split at dead
  · cases dead
  rename_i unlocked unlock
  obtain ⟨-, unlockedEq⟩ := shmUnlock_some unlock
  obtain ⟨freed, release, afterEq⟩ := Option.map_eq_some_iff.mp dead
  subst afterEq
  have hs : freed.owners = unlocked.owners ∧ freed.fragments = unlocked.fragments := by
    split at release
    · cases release
      exact ⟨rfl, rfl⟩
    · rw [(kernelMemoryObjectRelease_some release).2]
      exact ⟨rfl, rfl⟩
  rw [unlockedEq] at hs
  exact hs

theorem kernelShmAttachmentRelease_holders (got : s.attachment? a.address = some a)
    (freed : kernelShmAttachmentRelease s a.address = some s') : s'.owners = s.owners ∧ s'.fragments = s.fragments := by
  rcases kernelShmAttachmentRelease_some got freed with ⟨-, afterEq⟩ | ⟨-, res⟩
  · rw [afterEq]
    exact ⟨rfl, rfl⟩
  split at res
  · obtain ⟨ownersEq, fragmentsEq⟩ := kernelShmDestroySegmentLocked_holders res
    exact ⟨ownersEq, fragmentsEq⟩
  · rw [res]
    exact ⟨rfl, rfl⟩

theorem Consistent.release (con : Consistent s) (mem : a ∈ s.attachments) (move : HoldersMove s a.address a.segment owners frags)
    (nattchEq : nattch = frags.countP (fun f => f.slot = a.segment))
    (n : a.references = owners.count a.address + frags.countP (fun f => f.attachment = a.address) + 1)
    (freed : kernelShmAttachmentRelease (s.setSegment a.segment
      ((s.segments a.segment).counts (s.segments a.segment).attachments nattch)) a.address = some s') :
    Consistent { s' with owners := owners, fragments := frags } ∧
    Evolves s { s' with owners := owners, fragments := frags } s.marked := by
  obtain ⟨act, -, memory⟩ := con.core.attachments.valid a mem
  have got : (s.setSegment a.segment ((s.segments a.segment).counts (s.segments a.segment).attachments
      nattch)).attachment? a.address = some a := con.core.attachments.attachment?_eq mem
  rcases kernelShmAttachmentRelease_some got freed with ⟨_, afterEq⟩ | ⟨_, res⟩
  · subst afterEq
    exact con.rehold mem move nattchEq (by omega) (by omega) rfl
  have cnt : 0 < (s.segments a.segment).attachments := by
    rw [con.core.attachments.attachments_eq]
    exact countP_pos_iff.mpr ⟨a, mem, by simp⟩
  have core := con.core.detach mem move (Nat.sub_add_cancel cnt) nattchEq (by omega) (by omega)
  have detachedEq : (s.setSegment a.segment ((s.segments a.segment).counts
      (s.segments a.segment).attachments nattch)).detached a ((s.segments a.segment).attachments - 1) nattch =
      s.detached a ((s.segments a.segment).attachments - 1) nattch := by
    simp [detached, setSegment, update_idem, counts, dropAttachment]
  rw [setSegment_same] at res
  change if nattch = 0 ∧ (s.segments a.segment).attachments - 1 = 0 ∧ (s.segments a.segment).markedForDeletion then _ else _ at res
  change if _ then kernelShmDestroySegmentLocked (detached _ a ((s.segments a.segment).attachments - 1) nattch) a.segment = some s' else
    s' = detached _ a ((s.segments a.segment).attachments - 1) nattch at res
  rw [detachedEq] at res
  generalize (s.segments a.segment).attachments - 1 = left at res core
  have here : (s.detached a left nattch).segments a.segment = (s.segments a.segment).counts left nattch := setSegment_same _ _ _
  have away : ∀ other, other ≠ a.segment → (s.detached a left nattch).segments other = s.segments other :=
    fun other ne => setSegment_other _ _ ne
  split at res
  next due =>
    have bare := kernelShmDestroySegmentLocked_some (by rwa [here]) (by rwa [here]) res
    have moved : Emptied { s.detached a left nattch with
        owners := owners, fragments := frags } a.segment a.memory
        { s' with owners := owners, fragments := frags } :=
      ⟨bare.segments, bare.attachments, bare.memory, bare.memory_pos, bare.external,
        bare.locked, bare.gets, bare.ats, rfl, rfl, bare.destroyed, bare.requests⟩
    refine ⟨Consistent.emptied core (fun other ne => ?_) (here ▸ act) (here ▸ memory)
      (here ▸ due.2.1) moved, fun slot => moved.destroyed_le slot, fun slot slotActive => ?_⟩
    · rw [show _ = s.segments other from away other ne]
      exact con.kept other
    by_cases eq : slot = a.segment
    · subst eq
      refine .inr ⟨?_, ?_, due.2.2⟩
      · rw [moved.destroyed, update_self]
        rfl
      · rw [moved.segments, update_self]
        rfl
    refine .inl ⟨?_, ?_, ?_⟩
    · rw [moved.destroyed, update_of_ne eq]
      rfl
    · rwa [moved.segments, update_of_ne eq, show _ = s.segments slot from away slot eq]
    · rw [moved.segments, update_of_ne eq, show _ = s.segments slot from away slot eq]
      rfl
  next stays =>
    subst res
    have fields : ∀ slot, ((s.detached a left nattch).segments slot).active = (s.segments slot).active ∧
        ((s.detached a left nattch).segments slot).markedForDeletion = (s.segments slot).markedForDeletion := by
      intro slot
      by_cases eq : slot = a.segment
      · subst eq
        rw [here]
        exact ⟨rfl, rfl⟩
      · rw [away slot eq]
        exact ⟨rfl, rfl⟩
    refine ⟨⟨core, fun slot slotActive slotMarked none_ => ?_⟩, Evolves.quiet rfl (fun slot => (fields slot).1) fun slot => (fields slot).2⟩
    have quiet := core.nattch_zero none_
    have slotMarked := (fields slot).2.symm.trans slotMarked
    by_cases eq : slot = a.segment
    · subst eq
      exact stays ⟨(congrArg Segment.nattch here).symm.trans quiet, (congrArg Segment.attachments here).symm.trans none_, slotMarked⟩
    · exact con.kept slot ((fields slot).1.symm.trans slotActive) slotMarked
        ((congrArg Segment.attachments (away slot eq)).symm.trans none_)

end
end BoarOS.Shm
