import BoarOS.Shm.Lifetime

namespace BoarOS.Shm
open Function List Option

/-! # Runs of shared memory calls -/

variable {s s' : System} {slot : Slot} {seg : Segment} {res : Int}
variable {addr : Nat} {removing : Slot → Prop}

/-- What callers and the heap promise: a task makes one call at a time, a holder
gives back only what it holds, and a new object is not in use. -/
def Step.Allowed (s : System) : Step → Prop
  | .getLookup task _ _ _ _ => s.gets task = none
  | .getPublish task outcome =>
    (s.gets task).isSome ∧ ∀ object, outcome = .ok object → s.memory object = 0
  | .atLookup task _ _ _ => s.ats task = none
  | .atCreate task _ _ outcome =>
    (s.ats task).isSome ∧ ∀ address, outcome = some address → ∀ a ∈ s.attachments, a.address ≠ address
  | .atAbandon task => (s.ats task).isSome
  | .ownerAcquire address => ∃ f ∈ s.fragments, f.attachment = address
  | .ownerRelease address => address ∈ s.owners
  | .fragmentOpen _ address => address ∈ s.owners ∨ ∃ f ∈ s.fragments, f.attachment = address
  | .fragmentClose fragment => fragment ∈ s.fragments
  | .objectAcquire _ => True
  | .objectRelease object => object ∈ s.external
  | .control _ _ _ => True

/-- What a call found in the table before it waited is still so. -/
def Step.Undisturbed (s : System) : Step → Prop
  | .getPublish task (.ok _) => ∀ pending, s.gets task = some pending →
      (s.segments pending.slot).active = false ∧ (pending.key ≠ ipcPrivate → findKey s.segments pending.key = none)
  | .atCreate task _ _ (some _) => ∀ pending, s.ats task = some pending →
      (s.segments pending.slot).shmid = pending.shmid
  | _ => True

def Step.Removes (s : System) : Step → Slot → Prop
  | .control cred shmid .rmid, slot =>
    shmid = (s.segments slot).shmid ∧ shmOwner cred (s.segments slot) = true
  | _, _ => False

def Removing (s : System) (step : Step) (slot : Slot) : Prop := s.marked slot ∨ step.Removes s slot

theorem Evolves.of_marked (evolves : Evolves s s' s.marked)
    (eq : ∀ slot, (s.segments slot).active = true → (removing slot ↔ s.marked slot)) : Evolves s s' removing :=
  ⟨evolves.1, fun slot act => by rw [eq slot act]; exact evolves.2 slot act⟩

theorem SlotOk.val_eq (ok : SlotOk slot seg dead) (act : seg.active = true) : slot.val = seg.shmid.toNat % 128 := by
  have := ok.shmid_eq act
  rw [shmmni] at *
  omega

theorem evolves_modified (lockedPages : Nat → Nat) (act : seg.active = (s.segments slot).active)
    (marked : seg.markedForDeletion = (s.segments slot).markedForDeletion) :
    Evolves s { s.setSegment slot seg with lockedPages := lockedPages } s.marked := by
  exact Evolves.quiet rfl (setSegment_field Segment.active act) (setSegment_field Segment.markedForDeletion marked)

theorem evolves_self (s : System) : Evolves s s s.marked := Evolves.quiet rfl (fun _ => rfl) fun _ => rfl

theorem kernelShmAttachmentAcquire_some (acquired : kernelShmAttachmentAcquire s addr = some s') :
    ∃ a ∈ s.attachments, a.address = addr ∧ s' = s.putAttachment { a with references := a.references + 1 } := by
  rw [kernelShmAttachmentAcquire] at acquired
  split at acquired
  · cases acquired
  rename_i a got
  obtain ⟨mem, addrEq⟩ := attachment?_some got
  split at acquired
  · cases acquired
  cases acquired
  exact ⟨a, mem, addrEq, rfl⟩

theorem counts_self (seg : Segment) : seg.counts seg.attachments seg.nattch = seg := rfl

theorem kernelShmAttachmentOpen_some (opened : kernelShmAttachmentOpen s addr = some s') : ∃ a ∈ s.attachments, a.address = addr ∧
      s' = (s.putAttachment { a with references := a.references + 1 }).setSegment a.segment
        ((s.segments a.segment).counts (s.segments a.segment).attachments ((s.segments a.segment).nattch + 1)) := by
  rw [kernelShmAttachmentOpen] at opened
  split at opened
  · cases opened
  rename_i acquired acquire
  obtain ⟨a, mem, addrEq, acquiredEq⟩ := kernelShmAttachmentAcquire_some acquire
  subst addrEq acquiredEq
  have got : (s.putAttachment { a with references := a.references + 1 }).attachment? a.address =
      some { a with references := a.references + 1 } := by
    simp [System.attachment?, System.putAttachment]
  rw [got] at opened
  simp only at opened
  split at opened
  · cases opened
  cases opened
  exact ⟨a, mem, rfl, rfl⟩

section
variable [PageGeometry]

theorem Core.shmid_injective (core : Core s) (firstActive : (s.segments first).active = true)
    (secondActive : (s.segments snd).active = true) (eq : (s.segments first).shmid = (s.segments snd).shmid) : first = snd := by
  apply Fin.ext
  rw [(core.slot first).val_eq firstActive, (core.slot snd).val_eq secondActive, eq]

theorem Consistent.modified (con : Consistent s) (lockedPages : Nat → Nat)
    (same : SameSegment (s.segments slot) seg) (seq : seg.seq = (s.segments slot).seq)
    (atts : seg.attachments = (s.segments slot).attachments)
    (nattch : seg.nattch = (s.segments slot).nattch) (act : (s.segments slot).active = true)
    (key : seg.markedForDeletion = (s.segments slot).markedForDeletion ∧ seg.key = (s.segments slot).key ∨
      seg.markedForDeletion = true ∧ seg.key = ipcPrivate ∧ (s.segments slot).attachments ≠ 0)
    (locked : ∀ acc, lockedPages acc + (s.segments slot).charge acc = s.lockedPages acc + seg.charge acc) :
    Consistent { s.setSegment slot seg with lockedPages := lockedPages } := by
  have ok := con.core.attachments.setSegment_quiet same atts nattch
  have slotOk := con.core.slot slot
  refine ⟨⟨slotOk_setSegment con.core.slot ⟨seq.trans slotOk.seq_eq, fun isActive => ?_, fun isActive => ?_,
    fun idle => ?_, fun marked => ?_⟩, ⟨ok.distinct, ok.valid, ok.references, ok.referenced, ok.owner,
    ok.fragment, ok.attachments_eq, ok.nattch_eq, ok.requested⟩, ⟨fun obj => ?_, fun acc => ?_⟩, ?_⟩,
    fun k => ?_⟩
  · rw [same.shmid, seq]
    exact slotOk.shmid_eq act
  · rw [same.memory]
    exact slotOk.has_memory act
  · rw [same.active, act] at idle
    cases idle
  · rcases key with ⟨markedEq, keyEq⟩ | ⟨-, private_, -⟩
    · rw [keyEq]
      exact slotOk.marked_private (markedEq ▸ marked)
    · exact private_
  · have cnt := con.core.accounted.memory_eq obj
    have sum := sum_refers_setSegment s slot seg obj
    have refers : seg.refers obj = (s.segments slot).refers obj := by
      rw [Segment.refers, Segment.refers, same.memory]
    change s.memory obj = (∑ pos, ((s.setSegment slot seg).segments pos).refers obj) +
      List.countP _ s.attachments + List.count obj s.external
    omega
  · have cnt := con.core.accounted.locked_eq acc
    have sum := sum_charge_setSegment s slot seg acc
    have change_ := locked acc
    change lockedPages acc = ∑ pos, ((s.setSegment slot seg).segments pos).charge acc
    omega
  · refine con.core.keys.of_subset fun k otherActive otherFree _ => ?_
    by_cases here : k = slot
    · subst here
      rw [setSegment_same] at *
      rcases key with ⟨markedEq, keyEq⟩ | ⟨marked, -⟩
      · exact ⟨act, markedEq ▸ otherFree, keyEq.symm⟩
      rw [marked] at otherFree
      cases otherFree
    · rw [setSegment_other _ _ here] at *
      exact ⟨otherActive, otherFree, rfl⟩
  · by_cases here : k = slot
    · subst here
      rw [setSegment_same, atts]
      intro _ marked
      rcases key with ⟨markedEq, -⟩ | ⟨-, -, held⟩
      · exact con.kept k act (markedEq ▸ marked)
      · exact held
    · rw [setSegment_other _ _ here]
      exact con.kept k

theorem Emptied.evolves (bare : Emptied s slot obj s') (due : removing slot)
    (rest : ∀ k, k ≠ slot → (s.segments k).active = true → (removing k ↔ s.marked k)) : Evolves s s' removing := by
  refine ⟨bare.destroyed_le, fun k act => ?_⟩
  by_cases here : k = slot
  · subst here
    exact .inr ⟨by rw [bare.destroyed, update_self], by rw [bare.segments, update_self]; rfl, due⟩
  refine .inl ⟨by rw [bare.destroyed, update_of_ne here], ?_, ?_⟩
  · rwa [bare.segments, update_of_ne here]
  rw [bare.segments, update_of_ne here]
  exact (rest k here act).symm

theorem Consistent.rmid (con : Consistent s) (act : (s.segments slot).active = true) (due : removing slot)
    (rest : ∀ k, k ≠ slot → (s.segments k).active = true → (removing k ↔ s.marked k))
    (done : (if (s.segments slot).nattch = 0 ∧ (s.segments slot).attachments = 0 then
        (kernelShmDestroySegmentLocked s slot).map fun s => ((0 : Int), s)
      else some (0, s.setSegment slot
        { s.segments slot with markedForDeletion := true, key := ipcPrivate })) = some (res, s')) :
    Consistent s' ∧ Evolves s s' removing := by
  obtain ⟨_, memory⟩ := isSome_iff_exists.mp ((con.core.slot slot).has_memory act)
  split at done
  next unused =>
    obtain ⟨_, dead, pair⟩ := map_eq_some_iff.mp done
    cases pair
    have bare := kernelShmDestroySegmentLocked_some act memory dead
    exact ⟨Consistent.emptied con.core (fun k _ => con.kept k) act memory unused.2 bare, bare.evolves due rest⟩
  rename_i used
  cases done
  have held : (s.segments slot).attachments ≠ 0 := fun none_ => used ⟨con.core.nattch_zero none_, none_⟩
  refine ⟨con.modified s.lockedPages ⟨rfl, rfl, rfl⟩ rfl rfl rfl act (.inr ⟨rfl, rfl, held⟩)
    (fun _ => rfl), fun _ => le_rfl, fun k otherActive => ?_⟩
  by_cases here : k = slot
  · subst here
    rw [setSegment_same]
    exact .inl ⟨rfl, act, iff_of_true rfl due⟩
  · rw [setSegment_other _ _ here]
    exact .inl ⟨rfl, otherActive, (rest k here otherActive).symm⟩

theorem Consistent.lock (con : Consistent s) (act : (s.segments slot).active = true) (unlocked : (s.segments slot).lockAccount = none)
    (charging : kernelUidAccountShmLock s acc (s.segments slot).pages lim = some (st, charged)) :
    (st ≠ 0 → charged = s) ∧ (st = 0 → Consistent (charged.setSegment slot { s.segments slot with lockAccount := some acc }) ∧
      Evolves s (charged.setSegment slot { s.segments slot with lockAccount := some acc }) s.marked) := by
  rw [kernelUidAccountShmLock] at charging
  split at charging
  · cases charging
  split at charging
  · cases charging
    exact ⟨fun _ => rfl, fun ok => absurd ok (by decide)⟩
  cases charging
  refine ⟨fun refused => absurd rfl refused, fun _ => ⟨con.modified _ ⟨rfl, rfl, rfl⟩ rfl rfl rfl act
    (.inl ⟨rfl, rfl⟩) fun k => ?_, evolves_modified _ rfl rfl⟩⟩
  by_cases eq : k = acc
  · subst eq
    simp only [update_self, Segment.charge, unlocked, reduceCtorEq, if_false, if_true, Segment.pages]
    omega
  · simp only [update_of_ne eq, Segment.charge, unlocked, reduceCtorEq, if_false, some.injEq, Ne.symm eq]

theorem Consistent.control (con : Consistent s) (done : kernelShmCtl s cred shmid cmd = some (res, s')) :
    Consistent s' ∧ Evolves s s' (Removing s (.control cred shmid cmd)) := by
  have got : ∀ slot, (s.segments slot).active = true → shmid = (s.segments slot).shmid → slot = Fin.ofNat 128 (shmid.toNat % shmmni) := by
    intro slot act eq
    apply Fin.ext
    have := (con.core.slot slot).val_eq act
    simp only [Fin.ofNat, shmmni]
    omega
  have unchanged : (∀ slot, (s.segments slot).active = true → ¬ Step.Removes s (.control cred shmid cmd) slot) →
      Consistent s ∧ Evolves s s (Removing s (.control cred shmid cmd)) :=
    fun kept => ⟨con, (evolves_self s).of_marked fun slot act => or_iff_left (kept slot act)⟩
  rw [kernelShmCtl] at done
  split at done
  next negative =>
    cases done
    refine unchanged fun slot act removes => ?_
    cases cmd <;> first | exact removes | skip
    have := (con.core.slot slot).shmid_eq act
    have := removes.1
    omega
  simp only at done
  generalize targetEq : Fin.ofNat 128 (shmid.toNat % shmmni) = target at done got
  split at done
  next miss =>
    cases done
    refine unchanged fun slot act removes => ?_
    cases cmd <;> first | exact removes | skip
    have here := got slot act removes.1
    rcases miss with idle | ne
    · rw [← here, act] at idle
      cases idle
    · exact ne (here ▸ removes.1.symm)
  rename_i has
  have act : (s.segments target).active = true := by simpa using (not_or.mp has).1
  have eq : (s.segments target).shmid = shmid := not_not.mp (not_or.mp has).2
  have quiet : ∀ {s'}, cmd ≠ .rmid → Evolves s s' s.marked → Evolves s s' (Removing s (.control cred shmid cmd)) := by
    intro s' k evolves
    refine evolves.of_marked fun slot _ => or_iff_left ?_
    cases cmd <;> first | exact absurd rfl k | exact id
  have idle (ne : cmd ≠ .rmid) : Consistent s ∧ Evolves s s (Removing s (.control cred shmid cmd)) := ⟨con, quiet ne (evolves_self s)⟩
  cases cmd with
  | lock lim =>
    simp only at done
    split at done
    · cases done
      exact idle nofun
    split at done
    · cases done
      exact idle nofun
    split at done
    · cases done
      exact idle nofun
    rename_i unlocked
    cases charging : kernelUidAccountShmLock s cred.account (s.segments target).pages (lim / pageSize) with
    | none => simp [charging] at done
    | some charged =>
      obtain ⟨refused, ok⟩ := con.lock act (by simpa using unlocked) charging
      rw [charging] at done
      simp only at done
      split at done
      next refusal =>
        cases done
        rw [refused refusal]
        exact idle nofun
      rename_i acceptance
      cases done
      obtain ⟨next, evolves⟩ := ok (not_not.mp acceptance)
      exact ⟨next, quiet nofun evolves⟩
  | unlock =>
    simp only at done
    split at done
    · cases done
      exact idle nofun
    obtain ⟨_, unlock, pair⟩ := map_eq_some_iff.mp done
    cases pair
    obtain ⟨locked, unlockedEq⟩ := shmUnlock_some unlock
    rw [unlockedEq]
    refine ⟨con.modified _ ⟨rfl, rfl, rfl⟩ rfl rfl rfl act (.inl ⟨rfl, rfl⟩) fun acc => ?_, quiet nofun (evolves_modified _ rfl rfl)⟩
    have uncharged : Segment.charge { s.segments target with lockAccount := none } acc = 0 := rfl
    rw [uncharged]
    exact locked acc
  | rmid =>
    simp only at done
    have rest : ∀ k, k ≠ target → (s.segments k).active = true →
        (Removing s (.control cred shmid .rmid) k ↔ s.marked k) := fun k ne otherActive =>
      or_iff_left fun removes => ne (got k otherActive removes.1)
    split at done
    next denied =>
      cases done
      refine unchanged fun slot slotActive removes => ?_
      have here := got slot slotActive removes.1
      have owner := removes.2
      rw [here, denied] at owner
      cases owner
    next owner =>
      exact con.rmid act (.inr ⟨eq.symm, by simpa using owner⟩) rest done
  | set uid gid mode =>
    simp only at done
    split at done
    · cases done
      exact idle nofun
    split at done
    · cases done
      exact idle nofun
    split at done
    · cases done
      exact idle nofun
    cases done
    exact ⟨con.modified s.lockedPages ⟨rfl, rfl, rfl⟩ rfl rfl rfl act
      (.inl ⟨rfl, rfl⟩) (fun _ => rfl), quiet nofun (evolves_modified s.lockedPages
      rfl rfl)⟩

theorem kernelShmAttachmentClose_some (closed : kernelShmAttachmentClose s addr = some s') :
    ∃ a, s.attachment? addr = some a ∧ 0 < (s.segments a.segment).nattch ∧ kernelShmAttachmentRelease (s.setSegment a.segment
        ((s.segments a.segment).counts (s.segments a.segment).attachments ((s.segments a.segment).nattch - 1))) addr = some s' := by
  rw [kernelShmAttachmentClose] at closed
  split at closed
  · cases closed
  rename_i a got
  simp only at closed
  split at closed
  · cases closed
  next valid =>
    exact ⟨a, got, pos_of_ne_zero (not_or.mp valid).2, closed⟩

section
variable (con : Consistent s)
include con

namespace Consistent

theorem locals (gets : Nat → Option PendingGet) (ats : Nat → Option PendingAt) : Consistent { s with gets := gets, ats := ats } :=
  ⟨⟨con.core.slot, ⟨con.core.attachments.distinct, con.core.attachments.valid,
    con.core.attachments.references, con.core.attachments.referenced, con.core.attachments.owner,
    con.core.attachments.fragment, con.core.attachments.attachments_eq, con.core.attachments.nattch_eq,
    con.core.attachments.requested⟩, ⟨con.core.accounted.memory_eq, con.core.accounted.locked_eq⟩,
    con.core.keys⟩, con.kept⟩

theorem external {obj count : Nat} {external : List Nat} (here : count + s.external.count obj = s.memory obj + external.count obj)
    (away : ∀ k, k ≠ obj → external.count k = s.external.count k) :
    Consistent { s with memory := update s.memory obj count, external := external } := by
  refine ⟨⟨con.core.slot, ⟨con.core.attachments.distinct, con.core.attachments.valid,
    con.core.attachments.references, con.core.attachments.referenced, con.core.attachments.owner,
    con.core.attachments.fragment, con.core.attachments.attachments_eq, con.core.attachments.nattch_eq,
    con.core.attachments.requested⟩, ⟨fun k => ?_, con.core.accounted.locked_eq⟩,
    con.core.keys⟩, con.kept⟩
  have cnt := con.core.accounted.memory_eq k
  simp only
  by_cases eq : k = obj
  · subst eq
    rw [update_self]
    omega
  · rw [update_of_ne eq, away k eq]
    exact cnt

theorem ownerAcquire (acquire : kernelShmAttachmentAcquire s addr = some s') :
    Consistent { s' with owners := addr :: s'.owners } ∧ Evolves s { s' with owners := addr :: s'.owners } s.marked := by
  obtain ⟨a, mem, addrEq, afterEq⟩ := kernelShmAttachmentAcquire_some acquire
  subst addrEq afterEq
  refine con.rehold mem (ownersMove_cons s a.address a.segment) (con.core.attachments.nattch_eq a.segment)
    (by rw [count_cons_self]; have := con.core.attachments.references a mem; omega) (Nat.succ_pos a.references) ?_
  rw [counts_self, setSegment_self]
  rfl

theorem ownerRelease (held : addr ∈ s.owners) (release : kernelShmAttachmentRelease s addr = some s') :
    Consistent { s' with owners := s'.owners.erase addr } ∧ Evolves s { s' with owners := s'.owners.erase addr } s.marked := by
  obtain ⟨a, mem, addrEq⟩ := con.core.attachments.owner addr held
  subst addrEq
  obtain ⟨ownersEq, fragmentsEq⟩ := kernelShmAttachmentRelease_holders (con.core.attachments.attachment?_eq mem) release
  have refs := con.core.attachments.references a mem
  have n := count_erase_self (a := a.address) (l := s.owners)
  have pos := count_pos_iff.mpr held
  have moved := con.release mem (ownersMove_erase s a.address a.segment)
    (con.core.attachments.nattch_eq a.segment) (by omega) (by rwa [counts_self, setSegment_self])
  rw [ownersEq]
  rw [← fragmentsEq] at moved
  exact moved

theorem fragmentOpen (mm : Nat) (mem : a ∈ s.attachments) (opened : kernelShmAttachmentOpen s a.address = some s') :
    Consistent { s' with fragments := ⟨mm, a.address, a.segment⟩ :: s'.fragments } ∧
      Evolves s { s' with fragments := ⟨mm, a.address, a.segment⟩ :: s'.fragments } s.marked := by
  obtain ⟨b, bIn, addrEq, afterEq⟩ := kernelShmAttachmentOpen_some opened
  have eq := con.core.attachments.unique bIn mem addrEq
  subst eq afterEq
  have refs := con.core.attachments.references b mem
  exact con.rehold mem (fragmentsMove_cons s mm b.address b.segment) (by simp [con.core.attachments.nattch_eq])
    (by rw [countP_cons, refs]; simp; omega) (Nat.succ_pos b.references) rfl

theorem fragmentClose (held : fragment ∈ s.fragments) (closed : kernelShmAttachmentClose s fragment.attachment = some s') :
    Consistent { s' with fragments := s'.fragments.erase fragment } ∧
      Evolves s { s' with fragments := s'.fragments.erase fragment } s.marked := by
  obtain ⟨a, mem, addrEq, slotEq⟩ := con.core.attachments.fragment fragment held
  obtain ⟨_, got, _, release⟩ := kernelShmAttachmentClose_some closed
  rw [← addrEq, con.core.attachments.attachment?_eq mem] at got
  cases got
  rw [← addrEq] at release
  obtain ⟨ownersEq, fragmentsEq⟩ := kernelShmAttachmentRelease_holders (by exact con.core.attachments.attachment?_eq mem) release
  have perm := perm_cons_erase held
  have refs := con.core.attachments.references a mem
  have move := fragmentsMove_erase held
  rw [← addrEq, ← slotEq] at move
  have slotCount := perm.countP_eq (fun f => decide (f.slot = a.segment))
  have addressCount := perm.countP_eq (fun f => decide (f.attachment = a.address))
  rw [countP_cons, ← slotEq] at slotCount
  rw [countP_cons, ← addrEq] at addressCount
  simp only [decide_true, if_true] at slotCount addressCount
  have nattch := con.core.attachments.nattch_eq a.segment
  have moved := con.release mem move (show (s.segments a.segment).nattch - 1 = _ by omega) (by omega) release
  rw [fragmentsEq]
  rw [← show s'.owners = s.owners from ownersEq] at moved
  exact moved

theorem step {step : Step} (allowed : step.Allowed s) (undisturbed : step.Undisturbed s)
    (ran : s.step step = some (res, s')) : Consistent s' ∧ Evolves s s' (Removing s step) := by
  have quiet : ∀ {s'}, (∀ slot, ¬ step.Removes s slot) →
      Consistent s' ∧ Evolves s s' s.marked → Consistent s' ∧ Evolves s s' (Removing s step) :=
    fun none_ next => ⟨next.1, next.2.of_marked fun slot _ => or_iff_left (none_ slot)⟩
  cases step with
  | getLookup task cred key size shmflg =>
    refine quiet (fun _ => id) ?_
    rw [System.step] at ran
    split at ran
    · cases ran
      exact ⟨con, evolves_self s⟩
    · cases ran
      exact ⟨con.locals _ s.ats, evolves_self s⟩
  | getPublish task out =>
    refine quiet (fun _ => id) ?_
    obtain ⟨pend, wait⟩ := isSome_iff_exists.mp allowed.1
    rw [System.step, wait] at ran
    cases out with
    | noMemory | state =>
      cases ran
      exact ⟨con.locals _ s.ats, evolves_self s⟩
    | ok obj =>
      cases ran
      obtain ⟨free, unused⟩ := undisturbed pend wait
      obtain ⟨next, evolves⟩ := con.published free unused (allowed.2 obj rfl)
      exact ⟨next.locals _ s.ats, evolves⟩
  | atLookup task cred shmid shmflg =>
    refine quiet (fun _ => id) ?_
    rw [System.step] at ran
    split at ran
    · cases ran
      exact ⟨con, evolves_self s⟩
    · cases ran
      exact ⟨con.locals s.gets _, evolves_self s⟩
  | atCreate task start stop out =>
    refine quiet (fun _ => id) ?_
    obtain ⟨pend, wait⟩ := isSome_iff_exists.mp allowed.1
    rw [System.step, wait] at ran
    simp only at ran
    split at ran
    · cases ran
    rename_i created next create
    obtain ⟨act, ⟨outcomeEq, createdEq, nextEq⟩ | ⟨addr, obj, outcomeEq, createdEq, memory,
      nextEq⟩⟩ := kernelShmAttachmentCreate_some create
    · rw [createdEq, nextEq] at ran
      cases ran
      exact ⟨con.locals s.gets _, evolves_self s⟩
    subst outcomeEq createdEq nextEq
    cases ran
    have new := allowed.2 addr rfl
    have shmid := undisturbed pend wait
    obtain ⟨next, evolves⟩ := con.attached (a := ⟨addr, pend.slot, obj, start, stop, (s.segments pend.slot).shmid, 1⟩)
      new act rfl memory rfl
    refine ⟨?_, evolves⟩
    have next := next.locals s.gets (update s.ats task none)
    simp only [System.attached, ← dropAttachment_fresh new, shmid] at next
    rw [shmid]
    exact next
  | atAbandon task =>
    refine quiet (fun _ => id) ?_
    cases ran
    exact ⟨con.locals s.gets _, evolves_self s⟩
  | ownerAcquire addr =>
    refine quiet (fun _ => id) ?_
    obtain ⟨acquired, acquire, pair⟩ := map_eq_some_iff.mp ran
    cases pair
    exact con.ownerAcquire acquire
  | ownerRelease addr =>
    refine quiet (fun _ => id) ?_
    obtain ⟨freed, release, pair⟩ := map_eq_some_iff.mp ran
    cases pair
    exact con.ownerRelease allowed release
  | fragmentOpen mm addr =>
    refine quiet (fun _ => id) ?_
    rw [System.step] at ran
    split at ran
    · cases ran
    rename_i a got
    obtain ⟨mem, addrEq⟩ := attachment?_some got
    subst addrEq
    obtain ⟨_, open_, pair⟩ := map_eq_some_iff.mp ran
    cases pair
    exact con.fragmentOpen mm mem open_
  | fragmentClose fragment =>
    refine quiet (fun _ => id) ?_
    obtain ⟨_, close, pair⟩ := map_eq_some_iff.mp ran
    cases pair
    exact con.fragmentClose allowed close
  | objectAcquire obj =>
    refine quiet (fun _ => id) ?_
    obtain ⟨_, acquire, pair⟩ := map_eq_some_iff.mp ran
    cases pair
    rw [kernelMemoryObjectAcquire] at acquire
    split at acquire
    · cases acquire
    cases acquire
    exact ⟨con.external (by simp only [count_cons_self]; omega) (fun k ne => count_cons_of_ne (Ne.symm ne)), evolves_self s⟩
  | objectRelease obj =>
    refine quiet (fun _ => id) ?_
    obtain ⟨_, release, pair⟩ := map_eq_some_iff.mp ran
    cases pair
    obtain ⟨_, releasedEq⟩ := kernelMemoryObjectRelease_some release
    subst releasedEq
    have held := count_pos_iff.mpr allowed
    exact ⟨con.external (by simp only [count_erase_self]; omega) (fun k ne => count_erase_of_ne ne), evolves_self s⟩
  | control cred shmid cmd => exact con.control ran

end Consistent
end
end
end BoarOS.Shm
