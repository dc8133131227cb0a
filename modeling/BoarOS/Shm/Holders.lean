import BoarOS.Shm.Invariant

namespace BoarOS.Shm
open Function List

/-! # Attachments and their holders -/

variable {s : System} {slot : Slot} {seg : Segment} {a b : Attachment} {addr : Nat}
  {owners : List Nat} {frags : List Fragment}

theorem mem_dropAttachment : b ∈ (s.dropAttachment addr).attachments ↔ b ∈ s.attachments ∧ b.address ≠ addr := by
  simp [System.dropAttachment]

theorem AttachmentsOk.distinct_cons (ok : AttachmentsOk s) (mem : a ∈ s.attachments) :
    ((a :: (s.dropAttachment a.address).attachments).map Attachment.address).Nodup :=
  ((ok.perm mem).map _).nodup_iff.mp ok.distinct

structure HoldersMove (s : System) (address : Nat) (slot : Slot) (owners : List Nat)
    (fragments : List Fragment) : Prop where
  owners_other : ∀ other, other ≠ address → owners.count other = s.owners.count other
  fragments_other : ∀ other, other ≠ address →
    fragments.countP (fun f => f.attachment = other) = s.fragments.countP (fun f => f.attachment = other)
  slots_other : ∀ other, other ≠ slot → fragments.countP (fun f => f.slot = other) = s.fragments.countP (fun f => f.slot = other)
  fragment : ∀ f ∈ fragments, f ∈ s.fragments ∨ f.attachment = address ∧ f.slot = slot

structure SameSegment (old new : Segment) : Prop where
  active : new.active = old.active
  shmid : new.shmid = old.shmid
  memory : new.memory = old.memory

theorem AttachmentsOk.valid_setSegment (ok : AttachmentsOk s) (same : SameSegment (s.segments slot) seg)
    (mem : b ∈ s.attachments) : ((s.setSegment slot seg).segments b.segment).active = true ∧
      ((s.setSegment slot seg).segments b.segment).shmid = b.shmid ∧
      ((s.setSegment slot seg).segments b.segment).memory = some b.memory := by
  have valid := ok.valid b mem
  by_cases here : b.segment = slot
  · rw [here] at valid ⊢
    simp only [System.setSegment, update_self, same.active, same.shmid, same.memory]
    exact valid
  · simp only [System.setSegment, update_of_ne here]
    exact valid

theorem AttachmentsOk.nattch_move (ok : AttachmentsOk s) (move : HoldersMove s addr slot owners frags)
    (nattch : seg.nattch = frags.countP (fun f => f.slot = slot)) (k : Slot) :
    ((s.setSegment slot seg).segments k).nattch = frags.countP (fun f => f.slot = k) := by
  by_cases here : k = slot
  · simp only [here, System.setSegment, update_self]
    exact nattch
  simp only [System.setSegment, update_of_ne here]
  rw [move.slots_other _ here]
  exact ok.nattch_eq k

theorem AttachmentsOk.replace (ok : AttachmentsOk s) (mem : a ∈ s.attachments) (move : HoldersMove s a.address a.segment owners frags)
    (same : SameSegment (s.segments a.segment) seg) (n : refs = owners.count a.address + frags.countP (fun f => f.attachment = a.address))
    (kept : left = [] ∧ refs = 0 ∨ left = [{ a with references := refs }] ∧ 0 < refs)
    (atts : seg.attachments + 1 = (s.segments a.segment).attachments + left.length)
    (nattch : seg.nattch = frags.countP (fun f => f.slot = a.segment)) : AttachmentsOk { s.setSegment a.segment seg with
      attachments := left ++ (s.dropAttachment a.address).attachments, owners := owners, fragments := frags } := by
  have cases_on : ∀ b ∈ left ++ (s.dropAttachment a.address).attachments,
      b = { a with references := refs } ∧ 0 < refs ∨ b ∈ s.attachments ∧ b.address ≠ a.address := by
    intro b bIn
    refine (mem_append.mp bIn).imp (fun here => ?_) mem_dropAttachment.mp
    rcases kept with ⟨rfl, -⟩ | ⟨rfl, pos⟩
    · cases here
    · exact ⟨mem_singleton.mp here, pos⟩
  have back : ∀ b ∈ s.attachments, (b.address = a.address → 0 < refs) →
      ∃ c ∈ left ++ (s.dropAttachment a.address).attachments, c.address = b.address ∧ c.segment = b.segment := by
    intro b bIn held
    by_cases eq : b.address = a.address
    · rcases kept with ⟨-, zero⟩ | ⟨rfl, -⟩
      · exact absurd zero (held eq).ne'
      · rw [ok.unique bIn mem eq]
        exact ⟨_, .head _, rfl, rfl⟩
    · exact ⟨b, mem_append_right _ (mem_dropAttachment.mpr ⟨bIn, eq⟩), rfl, rfl⟩
  have valid := ok.valid_setSegment same mem
  constructor
  · have distinct := ok.distinct_cons mem
    rcases kept with ⟨rfl, -⟩ | ⟨rfl, -⟩
    · exact (nodup_cons.mp distinct).2
    · exact distinct
  · intro b bIn
    rcases cases_on b bIn with ⟨rfl, -⟩ | ⟨bIn, -⟩
    · exact valid
    · exact ok.valid_setSegment same bIn
  · intro b bIn
    rcases cases_on b bIn with ⟨rfl, -⟩ | ⟨bIn, ne⟩
    · exact n
    dsimp only
    rw [move.owners_other _ ne, move.fragments_other _ ne]
    exact ok.references b bIn
  · intro b bIn
    rcases cases_on b bIn with ⟨rfl, pos⟩ | ⟨bIn, -⟩
    · exact pos
    · exact ok.referenced b bIn
  · intro owner (ownerIn : owner ∈ owners)
    have held := count_pos_iff.mpr ownerIn
    have old : ∃ b ∈ s.attachments, b.address = owner := by
      by_cases here : owner = a.address
      · exact ⟨a, mem, here.symm⟩
      rw [move.owners_other _ here] at held
      exact ok.owner owner (count_pos_iff.mp held)
    obtain ⟨b, bIn, rfl⟩ := old
    obtain ⟨c, cIn, eq, -⟩ := back b bIn fun eq => by rw [eq] at held; omega
    exact ⟨c, cIn, eq⟩
  · intro f (fIn : f ∈ frags)
    have old : ∃ b ∈ s.attachments, b.address = f.attachment ∧ b.segment = f.slot := by
      rcases move.fragment f fIn with held | ⟨fAddress, fSlot⟩
      · exact ok.fragment f held
      · exact ⟨a, mem, fAddress.symm, fSlot.symm⟩
    obtain ⟨b, bIn, bAddress, bSlot⟩ := old
    obtain ⟨c, cIn, cAddress, cSlot⟩ := back b bIn fun eq => by
      have : 0 < frags.countP (fun f => f.attachment = a.address) := countP_pos_iff.mpr ⟨f, fIn, decide_eq_true (bAddress.symm.trans eq)⟩
      omega
    exact ⟨c, cIn, cAddress.trans bAddress, cSlot.trans bSlot⟩
  · intro k
    have cnt := ok.attachments_eq k
    rw [(ok.perm mem).countP_eq, countP_cons] at cnt
    have own : left.countP (fun b => b.segment = k) = if a.segment = k then left.length else 0 := by
      rcases kept with ⟨rfl, -⟩ | ⟨rfl, -⟩
      · simp
      · simp [countP_singleton]
    change ((s.setSegment a.segment seg).segments k).attachments = List.countP _ (left ++ _)
    rw [countP_append, own]
    by_cases here : k = a.segment
    · subst here
      simp only [System.setSegment, update_self]
      simp only [decide_true, if_true] at cnt ⊢
      omega
    · simp only [System.setSegment, update_of_ne here]
      simpa [Ne.symm here] using cnt
  · exact ok.nattch_move move nattch
  · intro b bIn
    rcases cases_on b bIn with ⟨rfl, -⟩ | ⟨bIn, -⟩
    · exact ok.requested a mem
    · exact ok.requested b bIn

def Segment.counts (seg : Segment) (attachments nattch : Nat) : Segment :=
  { seg with attachments := attachments, nattch := nattch }

theorem sameSegment_counts (seg : Segment) (atts nattch : Nat) : SameSegment seg (seg.counts atts nattch) := ⟨rfl, rfl, rfl⟩

theorem SlotOk.counts (ok : SlotOk slot seg dead) (act : seg.active = true)
    (atts nattch : Nat) : SlotOk slot (seg.counts atts nattch) dead :=
  ⟨ok.seq_eq, ok.shmid_eq, ok.has_memory, fun idle => absurd (act.symm.trans idle) (by decide), ok.marked_private⟩

theorem setSegment_self (s : System) (slot : Slot) : s.setSegment slot (s.segments slot) = s := by
  simp [System.setSegment]

theorem setSegment_same (s : System) (slot : Slot) (seg : Segment) : (s.setSegment slot seg).segments slot = seg := by
  simp [System.setSegment]

theorem setSegment_fragments (s : System) (slot : Slot) (seg : Segment) : (s.setSegment slot seg).fragments = s.fragments := rfl
theorem setSegment_external (s : System) (slot : Slot) (seg : Segment) : (s.setSegment slot seg).external = s.external := rfl

theorem setSegment_other (s : System) (seg : Segment) (ne : other ≠ slot) : (s.setSegment slot seg).segments other = s.segments other := by
  simp [System.setSegment, ne]

theorem setSegment_field (field : Segment → α) (same : field seg = field (s.segments slot)) (k : Slot) :
    field ((s.setSegment slot seg).segments k) = field (s.segments k) := by
  by_cases eq : k = slot
  · subst eq
    rw [setSegment_same, same]
  · rw [setSegment_other _ _ eq]

theorem slotOk_setSegment {dead : Slot → Nat} (ok : ∀ slot, SlotOk slot (s.segments slot) (dead slot))
    (here : SlotOk slot seg (dead slot)) (k : Slot) : SlotOk k ((s.setSegment slot seg).segments k) (dead k) := by
  by_cases eq : k = slot
  · subst eq
    rwa [setSegment_same]
  · rw [setSegment_other _ _ eq]
    exact ok k

theorem KeysUnique.of_subset (keys : KeysUnique s) (subset : ∀ slot, (s'.segments slot).active = true →
      (s'.segments slot).markedForDeletion = false → (s'.segments slot).key ≠ ipcPrivate →
      (s.segments slot).active = true ∧ (s.segments slot).markedForDeletion = false ∧
        (s.segments slot).key = (s'.segments slot).key) : KeysUnique s' := by
  intro first snd firstActive secondActive firstFree secondFree eq findable
  obtain ⟨firstWas, firstUnmarked, firstKey⟩ := subset first firstActive firstFree findable
  obtain ⟨secondWas, secondUnmarked, secondKey⟩ := subset snd secondActive secondFree (eq ▸ findable)
  exact keys first snd firstWas secondWas firstUnmarked secondUnmarked (firstKey.trans (eq.trans secondKey.symm)) (firstKey ▸ findable)

theorem keysUnique_setSegment (keys : KeysUnique s) (act : seg.active = (s.segments slot).active)
    (marked : seg.markedForDeletion = (s.segments slot).markedForDeletion)
    (key : seg.key = (s.segments slot).key) : KeysUnique (s.setSegment slot seg) := by
  refine keys.of_subset fun k otherActive otherFree otherKey => ?_
  by_cases eq : k = slot
  · subst eq
    rw [setSegment_same] at *
    exact ⟨act ▸ otherActive, marked ▸ otherFree, key.symm⟩
  · rw [setSegment_other _ _ eq] at *
    exact ⟨otherActive, otherFree, rfl⟩

theorem sum_refers_setSegment (s : System) (slot : Slot) (seg : Segment) (obj : Nat) :
    (∑ ne, ((s.setSegment slot seg).segments ne).refers obj) + (s.segments slot).refers obj =
      (∑ ne, (s.segments ne).refers obj) + seg.refers obj :=
  sum_update_add s.segments (fun seg => seg.refers obj) slot seg

section
variable [PageGeometry]

theorem sum_charge_setSegment (s : System) (slot : Slot) (seg : Segment) (acct : Nat) :
    (∑ ne, ((s.setSegment slot seg).segments ne).charge acct) + (s.segments slot).charge acct =
      (∑ ne, (s.segments ne).charge acct) + seg.charge acct :=
  sum_update_add s.segments (fun seg => seg.charge acct) slot seg

theorem sum_counts (s : System) (slot : Slot) (atts nattch : Nat) :
    (∀ obj, ∑ ne, ((s.setSegment slot ((s.segments slot).counts atts nattch)).segments ne).refers obj = ∑ ne, (s.segments ne).refers obj) ∧
      ∀ acct, ∑ ne, ((s.setSegment slot ((s.segments slot).counts atts nattch)).segments
        ne).charge acct = ∑ ne, (s.segments ne).charge acct := by
  refine ⟨fun obj => ?_, fun acct => ?_⟩
  · have sum := sum_refers_setSegment s slot ((s.segments slot).counts atts nattch) obj
    have eq : ((s.segments slot).counts atts nattch).refers obj = (s.segments slot).refers obj := rfl
    omega
  have sum := sum_charge_setSegment s slot ((s.segments slot).counts atts nattch) acct
  have eq : ((s.segments slot).counts atts nattch).charge acct = (s.segments slot).charge acct := rfl
  omega

theorem Core.replace (core : Core s) (mem : a ∈ s.attachments) (move : HoldersMove s a.address a.segment owners frags)
    (n : refs = owners.count a.address + frags.countP (fun f => f.attachment = a.address))
    (kept : left = [] ∧ refs = 0 ∨ left = [{ a with references := refs }] ∧ 0 < refs)
    (attachmentsEq : atts + 1 = (s.segments a.segment).attachments + left.length)
    (nattchEq : nattch = frags.countP (fun f => f.slot = a.segment))
    (memoryEq : ∀ obj, memory obj = s.memory obj + left.countP (fun b => b.memory = obj) - if a.memory = obj then 1 else 0) :
    Core { s.setSegment a.segment ((s.segments a.segment).counts atts nattch) with
      attachments := left ++ (s.dropAttachment a.address).attachments
      memory := memory, owners := owners, fragments := frags } := by
  have act := (core.attachments.valid a mem).1
  obtain ⟨refersEq, chargeEq⟩ := sum_counts s a.segment atts nattch
  have ok := core.attachments.replace mem move (sameSegment_counts _ atts nattch) n kept attachmentsEq nattchEq
  refine ⟨slotOk_setSegment core.slot ((core.slot _).counts act _ _),
    ⟨ok.distinct, ok.valid, ok.references, ok.referenced, ok.owner, ok.fragment, ok.attachments_eq, ok.nattch_eq, ok.requested⟩,
    ⟨fun obj => ?_, fun acc => ?_⟩, keysUnique_setSegment core.keys rfl rfl rfl⟩
  · have cnt := core.accounted.memory_eq obj
    rw [(core.attachments.perm mem).countP_eq, countP_cons] at cnt
    change memory obj = (∑ ne, ((s.setSegment a.segment _).segments ne).refers obj) + List.countP _ (left ++ _) + List.count obj s.external
    rw [refersEq, countP_append, memoryEq]
    simp only [decide_eq_true_eq] at cnt
    omega
  · exact (core.accounted.locked_eq acc).trans (chargeEq acc).symm

def System.detached (s : System) (a : Attachment) (attachments nattch : Nat) : System :=
  { (s.setSegment a.segment ((s.segments a.segment).counts attachments nattch)).dropAttachment a.address with
    memory := update s.memory a.memory (s.memory a.memory - 1) }

theorem Core.detach (core : Core s) (mem : a ∈ s.attachments) (move : HoldersMove s a.address a.segment owners frags)
    (attachmentsEq : atts + 1 = (s.segments a.segment).attachments) (nattchEq : nattch = frags.countP (fun f => f.slot = a.segment))
    (noOwner : owners.count a.address = 0) (noFragment : frags.countP (fun f => f.attachment = a.address) = 0) :
    Core { s.detached a atts nattch with owners := owners, fragments := frags } := by
  refine core.replace mem move (by rw [noOwner, noFragment]) (.inl ⟨rfl, rfl⟩) attachmentsEq nattchEq fun obj => ?_
  change update s.memory a.memory _ obj = _
  by_cases here : obj = a.memory
  · simp [here]
  · simp [here, Ne.symm here]

end
end BoarOS.Shm
