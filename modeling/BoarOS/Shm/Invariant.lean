import BoarOS.Shm.Model
import BoarOS.Data.FamilySum

namespace BoarOS.Shm
open List

/-! # What holds of the segment table between steps -/

/-- The segment in a slot that was emptied `destroyed` times. -/
structure SlotOk (slot : Slot) (seg : Segment) (destroyed : Nat) : Prop where
  seq_eq : seg.seq = 1 + destroyed % 65535
  shmid_eq : seg.active = true → seg.shmid = (slot.val + seg.seq * shmmni : Nat)
  has_memory : seg.active = true → seg.memory.isSome
  idle : seg.active = false → seg.memory = none ∧ seg.lockAccount = none ∧ seg.attachments = 0 ∧
    seg.nattch = 0 ∧ seg.markedForDeletion = false
  marked_private : seg.markedForDeletion = true → seg.key = ipcPrivate

structure AttachmentsOk (s : System) : Prop where
  distinct : (s.attachments.map Attachment.address).Nodup
  valid : ∀ a ∈ s.attachments, (s.segments a.segment).active = true ∧
    (s.segments a.segment).shmid = a.shmid ∧ (s.segments a.segment).memory = some a.memory
  references : ∀ a ∈ s.attachments, a.references = s.owners.count a.address + s.fragments.countP (fun f => f.attachment = a.address)
  referenced : ∀ a ∈ s.attachments, 0 < a.references
  owner : ∀ address ∈ s.owners, ∃ a ∈ s.attachments, a.address = address
  fragment : ∀ f ∈ s.fragments, ∃ a ∈ s.attachments, a.address = f.attachment ∧ a.segment = f.slot
  attachments_eq : ∀ slot, (s.segments slot).attachments = s.attachments.countP (fun a => a.segment = slot)
  nattch_eq : ∀ slot, (s.segments slot).nattch = s.fragments.countP (fun f => f.slot = slot)
  requested : ∀ a ∈ s.attachments, s.requests a.address = a.shmid

def Segment.refers (seg : Segment) (object : Nat) : Nat := if seg.memory = some object then 1 else 0

section
variable [PageGeometry]

def Segment.charge (seg : Segment) (account : Nat) : Nat :=
  if seg.lockAccount = some account then seg.pages else 0

/-- Every reference to a memory object and every charged page has one reason. -/
structure Accounted (s : System) : Prop where
  memory_eq : ∀ object, s.memory object = (∑ slot, (s.segments slot).refers object) +
    s.attachments.countP (fun a => a.memory = object) + s.external.count object
  locked_eq : ∀ account, s.lockedPages account = ∑ slot, (s.segments slot).charge account

def KeysUnique (s : System) : Prop :=
  ∀ first second, (s.segments first).active = true → (s.segments second).active = true →
    (s.segments first).markedForDeletion = false → (s.segments second).markedForDeletion = false →
    (s.segments first).key = (s.segments second).key → (s.segments first).key ≠ ipcPrivate → first = second

structure Core (s : System) : Prop where
  slot : ∀ slot, SlotOk slot (s.segments slot) (s.destroyed slot)
  attachments : AttachmentsOk s
  accounted : Accounted s
  keys : KeysUnique s

structure Consistent (s : System) : Prop where
  core : Core s
  kept : ∀ slot, (s.segments slot).active = true → (s.segments slot).markedForDeletion = true → (s.segments slot).attachments ≠ 0

theorem Consistent.initial : Consistent System.initial := by
  refine ⟨⟨fun slot => ⟨rfl, nofun, nofun, fun _ => ⟨rfl, rfl, rfl, rfl, rfl⟩, nofun⟩,
    ⟨nodup_nil, nofun, nofun, nofun, nofun, nofun, fun _ => rfl, fun _ => rfl, nofun⟩, ⟨?_, ?_⟩,
    fun first snd act => nomatch act⟩, fun slot act => nomatch act⟩
  · intro obj
    simp [System.initial, Segment.refers]
  · intro acc
    simp [System.initial, Segment.charge]

end

variable {s : System} {slot : Slot} {seg : Segment} {a : Attachment} {addr : Nat}

theorem AttachmentsOk.unique (ok : AttachmentsOk s) (aIn : a ∈ s.attachments)
    (bIn : b ∈ s.attachments) (eq : a.address = b.address) : a = b :=
  inj_on_of_nodup_map ok.distinct aIn bIn eq

theorem attachment?_some (got : s.attachment? addr = some a) : a ∈ s.attachments ∧ a.address = addr :=
  ⟨mem_of_find?_eq_some got, by simpa using find?_some got⟩

theorem AttachmentsOk.attachment?_eq (ok : AttachmentsOk s) (mem : a ∈ s.attachments) : s.attachment? a.address = some a := by
  cases got : s.attachment? a.address with
  | none => simpa using find?_eq_none.mp got a mem
  | some b =>
    obtain ⟨bIn, eq⟩ := attachment?_some got
    rw [ok.unique bIn mem eq]

theorem AttachmentsOk.perm (ok : AttachmentsOk s) (mem : a ∈ s.attachments) :
    s.attachments.Perm (a :: (s.dropAttachment a.address).attachments) := by
  have nodup := ok.distinct.of_map
  refine (perm_ext_iff_of_nodup nodup (nodup_cons.mpr ⟨?_, nodup.filter _⟩)).mpr fun b => ?_
  · simp
  simp only [mem_cons, mem_filter, bne_iff_ne]
  constructor
  · intro bIn
    by_cases eq : b.address = a.address
    · exact .inl (ok.unique bIn mem eq)
    · exact .inr ⟨bIn, eq⟩
  · rintro (eq | ⟨bIn, -⟩)
    · exact eq ▸ mem
    · exact bIn

end BoarOS.Shm
