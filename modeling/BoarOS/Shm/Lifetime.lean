import BoarOS.Shm.Steps

namespace BoarOS.Shm
open Function List

/-! # Lifetime of segments over whole runs -/

variable {s s' : System} {slot : Slot} {seg : Segment} {a : Attachment} {addr obj : Nat}

def System.attached (s : System) (a : Attachment) : System :=
  { s.setSegment a.segment ((s.segments a.segment).counts ((s.segments a.segment).attachments + 1) (s.segments a.segment).nattch) with
    attachments := a :: s.attachments
    memory := update s.memory a.memory (s.memory a.memory + 1)
    owners := a.address :: s.owners
    requests := update s.requests a.address a.shmid }

theorem AttachmentsOk.attached (ok : AttachmentsOk s) (new : ∀ b ∈ s.attachments, b.address ≠ a.address)
    (act : (s.segments a.segment).active = true) (shmid : (s.segments a.segment).shmid = a.shmid)
    (memory : (s.segments a.segment).memory = some a.memory) (one : a.references = 1) : AttachmentsOk (s.attached a) := by
  have noOwner : s.owners.count a.address = 0 := count_eq_zero.mpr fun held => by
    obtain ⟨b, bIn, bAddress⟩ := ok.owner _ held
    exact new b bIn bAddress
  have noFragment : s.fragments.countP (fun f => f.attachment = a.address) = 0 :=
    countP_eq_zero.mpr fun f fIn => by
      obtain ⟨b, bIn, bAddress, -⟩ := ok.fragment f fIn
      simpa [← bAddress] using new b bIn
  have valid : ∀ b ∈ s.attachments, _ := fun b bIn =>
    ok.valid_setSegment (sameSegment_counts (s.segments a.segment)
      ((s.segments a.segment).attachments + 1) (s.segments a.segment).nattch) bIn
  refine ⟨?_, ?_, ?_, ?_, ?_, ?_, ?_, ?_, ?_⟩
  · refine nodup_cons.mpr ⟨fun mem => ?_, ok.distinct⟩
    obtain ⟨b, bIn, bAddress⟩ := mem_map.mp mem
    exact new b bIn bAddress
  · intro b bIn
    rcases mem_cons.mp bIn with here | pre
    · subst here
      simp only [System.attached, setSegment_same]
      exact ⟨act, shmid, memory⟩
    · exact valid b pre
  · intro b bIn
    simp only [System.attached, setSegment_fragments]
    rcases mem_cons.mp bIn with here | pre
    · subst here
      rw [count_cons_self, noOwner, noFragment, one]
    · rw [count_cons_of_ne (Ne.symm (new b pre))]
      exact ok.references b pre
  · intro b bIn
    rcases mem_cons.mp bIn with here | pre
    · subst here
      omega
    · exact ok.referenced b pre
  · intro owner ownerIn
    rcases mem_cons.mp ownerIn with here | pre
    · exact ⟨a, .head _, here.symm⟩
    obtain ⟨b, bIn, bAddress⟩ := ok.owner owner pre
    exact ⟨b, .tail _ bIn, bAddress⟩
  · intro f fIn
    obtain ⟨b, bIn, facts⟩ := ok.fragment f fIn
    exact ⟨b, .tail _ bIn, facts⟩
  · intro k
    simp only [System.attached, countP_cons]
    have cnt := ok.attachments_eq k
    by_cases here : k = a.segment
    · subst here
      rw [setSegment_same]
      simp only [decide_true, if_true, Segment.counts]
      omega
    · rw [setSegment_other _ _ here]
      simp only [Ne.symm here, decide_false, Bool.false_eq_true, if_false]
      omega
  · intro k
    simp only [System.attached]
    refine (setSegment_field Segment.nattch ?_ k).trans (ok.nattch_eq k)
    rfl
  · intro b bIn
    simp only [System.attached]
    rcases mem_cons.mp bIn with here | pre
    · subst here
      rw [update_self]
    · rw [update_of_ne (new b pre)]
      exact ok.requested b pre

theorem kernelShmAttachmentCreate_some (res : kernelShmAttachmentCreate s slot start stop out = some (created, s')) :
    (s.segments slot).active = true ∧
    ((out = none ∧ created = none ∧ s' = s) ∨ ∃ addr obj, out = some addr ∧ created = some addr ∧ (s.segments slot).memory = some obj ∧
        s' = ({ s with memory := update s.memory obj (s.memory obj + 1) }.putAttachment
          { address := addr, segment := slot, memory := obj, start := start, stop := stop,
            shmid := (s.segments slot).shmid, references := 1 }).setSegment slot
          ((s.segments slot).counts ((s.segments slot).attachments + 1) (s.segments slot).nattch)) := by
  rw [kernelShmAttachmentCreate] at res
  simp only at res
  split at res
  · cases res
  rename_i obj memory
  split at res
  · cases res
  rename_i live
  refine ⟨by simpa using (not_or.mp live).1, ?_⟩
  split at res
  · cases res
    exact .inl ⟨rfl, rfl, rfl⟩
  rename_i addr
  obtain ⟨_, acquire, pair⟩ := Option.map_eq_some_iff.mp res
  rw [kernelMemoryObjectAcquire] at acquire
  split at acquire
  · cases acquire
  cases acquire
  cases pair
  exact .inr ⟨addr, obj, rfl, rfl, memory, rfl⟩

theorem dropAttachment_fresh (new : ∀ b ∈ s.attachments, b.address ≠ addr) : (s.dropAttachment addr).attachments = s.attachments :=
  filter_eq_self.mpr fun b bIn => by simpa using new b bIn

theorem findKey_none (none_ : findKey segments key = none) (slot : Slot) (act : (segments slot).active = true)
    (clear : (segments slot).markedForDeletion = false) : (segments slot).key ≠ key := by
  have := find?_eq_none.mp none_ slot (mem_finRange slot)
  simpa [act, clear] using this

theorem KeysUnique.findKey_eq (keys : KeysUnique s) (act : (s.segments slot).active = true)
    (clear : (s.segments slot).markedForDeletion = false) (findable : (s.segments slot).key ≠ ipcPrivate) :
    findKey s.segments (s.segments slot).key = some slot := by
  cases got : findKey s.segments (s.segments slot).key with
  | none => exact absurd rfl (findKey_none got slot act clear)
  | some k =>
    have matched := find?_some got
    simp only [Bool.and_eq_true, Bool.not_eq_true', beq_iff_eq] at matched
    rw [keys k slot matched.1.1 act matched.1.2 clear matched.2 (matched.2 ▸ findable)]

section
variable [PageGeometry]

theorem Consistent.attached (con : Consistent s) (new : ∀ b ∈ s.attachments, b.address ≠ a.address)
    (act : (s.segments a.segment).active = true) (shmid : (s.segments a.segment).shmid = a.shmid)
    (memory : (s.segments a.segment).memory = some a.memory) (one : a.references = 1) :
    Consistent (s.attached a) ∧ Evolves s (s.attached a) s.marked := by
  obtain ⟨refersEq, chargeEq⟩ := sum_counts s a.segment ((s.segments a.segment).attachments + 1) (s.segments a.segment).nattch
  have fields : ∀ k, ((s.attached a).segments k).active = (s.segments k).active ∧
      ((s.attached a).segments k).markedForDeletion = (s.segments k).markedForDeletion ∧
      (s.segments k).attachments ≤ ((s.attached a).segments k).attachments := by
    intro k
    simp only [System.attached]
    by_cases eq : k = a.segment
    · subst eq
      rw [setSegment_same]
      exact ⟨rfl, rfl, Nat.le_succ _⟩
    · rw [setSegment_other _ _ eq]
      exact ⟨rfl, rfl, le_rfl⟩
  refine ⟨⟨⟨slotOk_setSegment con.core.slot ((con.core.slot _).counts act _ _),
    con.core.attachments.attached new act shmid memory one, ⟨fun k => ?_, fun acc => ?_⟩,
    keysUnique_setSegment con.core.keys rfl rfl rfl⟩, fun k otherActive otherMarked => ?_⟩,
    Evolves.quiet rfl (fun k => (fields k).1) fun k => (fields k).2.1⟩
  · have cnt := con.core.accounted.memory_eq k
    simp only [System.attached, countP_cons, setSegment_external]
    rw [refersEq]
    by_cases eq : k = a.memory
    · subst eq
      simp only [update_self, decide_true, if_true]
      omega
    · simp only [update_of_ne eq, Ne.symm eq, decide_false, Bool.false_eq_true, if_false]
      omega
  · exact (con.core.accounted.locked_eq acc).trans (chargeEq acc).symm
  · obtain ⟨activeEq, markedEq, _⟩ := fields k
    have := con.kept k (activeEq ▸ otherActive) (markedEq ▸ otherMarked)
    omega

theorem Consistent.published (con : Consistent s) (free : (s.segments pend.slot).active = false)
    (unused : pend.key ≠ ipcPrivate → findKey s.segments pend.key = none) (new : s.memory obj = 0) :
    Consistent { s.setSegment pend.slot (newSegment (s.segments pend.slot) pend obj) with memory := update s.memory obj 1 } ∧
    Evolves s { s.setSegment pend.slot (newSegment (s.segments pend.slot) pend obj) with memory := update s.memory obj 1 } s.marked := by
  obtain ⟨noMemory, noLock, -⟩ := (con.core.slot pend.slot).idle free
  have empty : ∀ b ∈ s.attachments, b.segment ≠ pend.slot := by
    intro b bIn here
    have := (con.core.attachments.valid b bIn).1
    rw [here, free] at this
    cases this
  have ok : AttachmentsOk (s.setSegment pend.slot (newSegment (s.segments pend.slot) pend obj)) :=
    con.core.attachments.setSegment_free empty rfl rfl
  refine ⟨⟨⟨slotOk_setSegment con.core.slot ?_, ⟨ok.distinct, ok.valid, ok.references, ok.referenced,
    ok.owner, ok.fragment, ok.attachments_eq, ok.nattch_eq, ok.requested⟩, ⟨fun k => ?_,
    fun acc => ?_⟩, ?_⟩, fun k => ?_⟩, fun _ => le_rfl,
    fun k otherActive => .inl ⟨rfl, ?_, ?_⟩⟩
  · exact ⟨(con.core.slot pend.slot).seq_eq, fun _ => by simp [newSegment], fun _ => rfl, by rintro ⟨⟩, by rintro ⟨⟩⟩
  · have cnt := con.core.accounted.memory_eq k
    have sum := sum_refers_setSegment s pend.slot (newSegment (s.segments pend.slot) pend obj) k
    have pre : (s.segments pend.slot).refers k = 0 := by simp [Segment.refers, noMemory]
    simp only
    by_cases eq : k = obj
    · subst eq
      have now : (newSegment (s.segments pend.slot) pend k).refers k = 1 := by
        simp [newSegment, Segment.refers]
      rw [update_self]
      change 1 = (∑ pos, ((s.setSegment pend.slot _).segments pos).refers k) + List.countP _ s.attachments + List.count k s.external
      omega
    have now : (newSegment (s.segments pend.slot) pend obj).refers k = 0 := by
      simp [newSegment, Segment.refers, Ne.symm eq]
    rw [update_of_ne eq]
    change s.memory k = (∑ pos, ((s.setSegment pend.slot _).segments pos).refers k) + List.countP _ s.attachments + List.count k s.external
    omega
  · have cnt := con.core.accounted.locked_eq acc
    have sum := sum_charge_setSegment s pend.slot (newSegment (s.segments pend.slot) pend obj) acc
    have pre : (s.segments pend.slot).charge acc = 0 := by simp [Segment.charge, noLock]
    have now : (newSegment (s.segments pend.slot) pend obj).charge acc = 0 := rfl
    change s.lockedPages acc = ∑ pos, ((s.setSegment pend.slot _).segments pos).charge acc
    omega
  · intro first snd firstActive secondActive firstFree secondFree eq findable
    have out : ∀ pos, pos ≠ pend.slot → (s.segments pos).active = true →
        (s.segments pos).markedForDeletion = false → pend.key ≠ ipcPrivate →
        (s.segments pos).key ≠ pend.key :=
      fun pos _ act clear findable => findKey_none (unused findable) pos act clear
    simp only at *
    by_cases firstHere : first = pend.slot
    · by_cases secondHere : snd = pend.slot
      · rw [firstHere, secondHere]
      · subst firstHere
        rw [setSegment_same] at eq findable
        rw [setSegment_other _ _ secondHere] at eq secondActive secondFree
        exact absurd eq.symm (out snd secondHere secondActive secondFree findable)
    by_cases secondHere : snd = pend.slot
    · subst secondHere
      rw [setSegment_same] at eq
      rw [setSegment_other _ _ firstHere] at eq firstActive firstFree findable
      exact absurd eq (out first firstHere firstActive firstFree (fun private_ => findable (eq.trans private_)))
    · rw [setSegment_other _ _ firstHere] at *
      rw [setSegment_other _ _ secondHere] at *
      exact con.core.keys first snd firstActive secondActive firstFree secondFree eq findable
  · simp only
    by_cases eq : k = pend.slot
    · subst eq
      rw [setSegment_same]
      rintro _ ⟨⟩
    · rw [setSegment_other _ _ eq]
      exact con.kept k
  · have ne : k ≠ pend.slot := by
      rintro rfl
      rw [free] at otherActive
      cases otherActive
    simp only
    rwa [setSegment_other _ _ ne]
  · have ne : k ≠ pend.slot := by
      rintro rfl
      rw [free] at otherActive
      cases otherActive
    simp only
    rw [setSegment_other _ _ ne, System.marked]

end
end BoarOS.Shm
