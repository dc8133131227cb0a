import BoarOS.Page
import Mathlib.Data.List.FinRange

namespace BoarOS.Shm
open Function (update)

/-! # System V shared memory segments (`mm/shm.c`)

The segment table is protected by running on CPU 0 with interrupts off. `shmget` may wait for memory after it has
chosen a slot and `shmat` for the address space after it has looked its identifier up, so each of the two is two
steps, with the caller's locals in between. `none` is a `__builtin_trap`. -/

def shmmni : Nat := 128
def shmmin : Nat := 1
def shmmax : Nat := 1024 * 1024 * 1024
def ipcPrivate : Int := 0
def ipcCreat : Nat := 0o1000
def ipcExcl : Nat := 0o2000
def shmRdonly : Nat := 0o10000
def shmExec : Nat := 0o100000
def uint32Max : Nat := 2 ^ 32 - 1
def uint64Max : Nat := 2 ^ 64 - 1
def kernelEPERM : Int := 1
def kernelENOENT : Int := 2
def kernelENOMEM : Int := 12
def kernelEACCES : Int := 13
def kernelEEXIST : Int := 17
def kernelEINVAL : Int := 22
def kernelENOSPC : Int := 28
def kernelEIDRM : Int := 43
def capIpcLock : Nat := 14
def capIpcOwner : Nat := 15
def capSysAdmin : Nat := 21
def capLastCap : Nat := 40

structure Credentials where
  euid : Nat
  egid : Nat
  fsgid : Nat
  groups : List Nat
  effective : Nat
  account : Nat
deriving Repr, DecidableEq

def searchGroups (ids : List Nat) (gid low high : Nat) : Bool :=
  if low < high then
    let mid := low + (high - low) / 2
    let value := ids.getD mid 0
    if value = gid then true
    else if value < gid then searchGroups ids gid (mid + 1) high
    else searchGroups ids gid low mid
  else false
termination_by high - low
decreasing_by all_goals omega

def Credentials.inGroup (cred : Credentials) (gid : Nat) : Bool :=
  cred.fsgid == gid || searchGroups cred.groups gid 0 cred.groups.length

def Credentials.capable (cred : Credentials) (cap : Nat) : Bool :=
  cap ≤ capLastCap && cred.effective.testBit cap

structure Segment where
  shmid : Int := -1
  seq : Nat := 1
  key : Int := ipcPrivate
  size : Nat := 0
  alignedSize : Nat := 0
  memory : Option Nat := none
  lockAccount : Option Nat := none
  nattch : Nat := 0
  attachments : Nat := 0
  mode : Nat := 0
  uid : Nat := 0
  gid : Nat := 0
  cuid : Nat := 0
  cgid : Nat := 0
  markedForDeletion : Bool := false
  active : Bool := false
deriving Repr, DecidableEq

def missingBits (requested mode : Nat) : Bool :=
  (List.range 3).any fun bit => requested.testBit bit && !mode.testBit bit

def shmPermission (cred : Credentials) (seg : Segment) (requested : Nat) : Int :=
  let mode :=
    if cred.euid = seg.uid ∨ cred.euid = seg.cuid then seg.mode >>> 6
    else if cred.inGroup seg.gid ∨ cred.inGroup seg.cgid then seg.mode >>> 3
    else seg.mode
  if missingBits requested mode ∧ ¬ cred.capable capIpcOwner then -kernelEACCES else 0

def shmOwner (cred : Credentials) (seg : Segment) : Bool :=
  cred.euid == seg.uid || cred.euid == seg.cuid || cred.capable capSysAdmin

abbrev Slot := Fin 128

structure Attachment where
  address : Nat
  segment : Slot
  memory : Nat
  start : Nat
  stop : Nat
  shmid : Int
  references : Nat
deriving Repr, DecidableEq

structure Fragment where
  mm : Nat
  attachment : Nat
  slot : Slot
deriving Repr, DecidableEq

structure PendingGet where
  slot : Slot
  key : Int
  size : Nat
  alignedSize : Nat
  shmflg : Nat
  cred : Credentials
deriving Repr, DecidableEq

structure PendingAt where
  slot : Slot
  shmid : Int
deriving Repr, DecidableEq

/-- `memory` counts the references of each memory object, `external` those that address spaces hold for themselves;
`lockedPages` is `shm_locked_pages`; `owners` are attachments held by a running call, `fragments` those held by
address spaces. `destroyed` counts how often a slot was emptied, `requests` is the identifier an attachment was asked
for under. -/
structure System where
  segments : Slot → Segment
  attachments : List Attachment
  memory : Nat → Nat
  external : List Nat
  lockedPages : Nat → Nat
  gets : Nat → Option PendingGet
  ats : Nat → Option PendingAt
  owners : List Nat
  fragments : List Fragment
  destroyed : Slot → Nat
  requests : Nat → Int

def System.initial : System where
  segments _ := {}
  attachments := []
  memory _ := 0
  external := []
  lockedPages _ := 0
  gets _ := none
  ats _ := none
  owners := []
  fragments := []
  destroyed _ := 0
  requests _ := 0

def System.setSegment (s : System) (slot : Slot) (seg : Segment) : System :=
  { s with segments := update s.segments slot seg }

def kernelMemoryObjectAcquire (s : System) (object : Nat) : Option System :=
  if s.memory object = 0 ∨ s.memory object = uint32Max then none
  else some { s with memory := update s.memory object (s.memory object + 1) }

def kernelMemoryObjectRelease (s : System) (object : Nat) : Option System :=
  if s.memory object = 0 then none
  else some { s with memory := update s.memory object (s.memory object - 1) }

section
variable [PageGeometry]

def Segment.pages (seg : Segment) : Nat := seg.alignedSize / pageSize

/-- `kernel_uid_account_shm_lock`: no pages trap, too many are refused. -/
def kernelUidAccountShmLock (s : System) (account pages limit : Nat) : Option (Int × System) :=
  if pages = 0 then none
  else if pages > limit ∨ s.lockedPages account > limit - pages then some (-kernelENOMEM, s)
  else
    some (0, { s with lockedPages := update s.lockedPages account (s.lockedPages account + pages) })

def kernelUidAccountShmUnlock (s : System) (account pages : Nat) : Option System :=
  if pages = 0 ∨ s.lockedPages account < pages then none
  else
    some { s with lockedPages := update s.lockedPages account (s.lockedPages account - pages) }

def shmUnlock (s : System) (slot : Slot) : Option System :=
  match (s.segments slot).lockAccount with
  | none => some s
  | some account =>
    kernelUidAccountShmUnlock (s.setSegment slot { s.segments slot with lockAccount := none }) account (s.segments slot).pages

/-- The sequence number is 16 bits wide and skips zero. -/
def nextSeq (seq : Nat) : Nat :=
  if (seq + 1) % 2 ^ 16 = 0 then 1 else (seq + 1) % 2 ^ 16

def emptySegment (seg : Segment) : Segment :=
  { seg with
    active := false
    markedForDeletion := false
    key := ipcPrivate
    size := 0
    alignedSize := 0
    memory := none
    nattch := 0
    attachments := 0
    seq := nextSeq seg.seq
    shmid := -1 }

def kernelShmDestroySegmentLocked (s : System) (slot : Slot) : Option System :=
  if (s.segments slot).active = false then some s
  else
    match shmUnlock s slot with
    | none => none
    | some s =>
      let released :=
        match (s.segments slot).memory with
        | none => some s
        | some object => kernelMemoryObjectRelease s object
      released.map fun s =>
        { s.setSegment slot (emptySegment (s.segments slot)) with
          destroyed := update s.destroyed slot (s.destroyed slot + 1) }

def findKey (segments : Slot → Segment) (key : Int) : Option Slot :=
  (List.finRange 128).find? fun slot =>
    (segments slot).active && !(segments slot).markedForDeletion && (segments slot).key == key

def findFree (segments : Slot → Segment) : Option Slot :=
  (List.finRange 128).find? fun slot => !(segments slot).active

/-- The first part of `kernel_shm_get`: a result, or the slot to fill. -/
def kernelShmGetLookup (s : System) (cred : Credentials) (key : Int) (size shmflg : Nat) : Int ⊕ PendingGet :=
  match (if key ≠ ipcPrivate then findKey s.segments key else none) with
  | some slot =>
    let seg := s.segments slot
    if shmflg &&& (ipcCreat ||| ipcExcl) = ipcCreat ||| ipcExcl then .inl (-kernelEEXIST)
    else if size > seg.size then .inl (-kernelEINVAL)
    else
      let access := shmflg &&& 0o777
      let permission := shmPermission cred seg ((access ||| (access >>> 3) ||| (access >>> 6)) &&& 7)
      if permission ≠ 0 then .inl permission else .inl seg.shmid
  | none =>
    if key ≠ ipcPrivate ∧ shmflg &&& ipcCreat = 0 then .inl (-kernelENOENT)
    else if size < shmmin ∨ size > shmmax then .inl (-kernelEINVAL)
    else
      match findFree s.segments with
      | none => .inl (-kernelENOSPC)
      | some slot =>
        .inr { slot := slot, key := key, size := size,
               alignedSize := (size + pageSize - 1) / pageSize * pageSize, shmflg := shmflg,
               cred := cred }

def newSegment (seg : Segment) (pending : PendingGet) (object : Nat) : Segment :=
  { seg with
    shmid := pending.slot.val + seg.seq * shmmni
    key := pending.key
    size := pending.size
    alignedSize := pending.alignedSize
    memory := some object
    lockAccount := none
    nattch := 0
    attachments := 0
    mode := pending.shmflg &&& 0o777
    uid := pending.cred.euid
    cuid := pending.cred.euid
    gid := pending.cred.egid
    cgid := pending.cred.egid
    markedForDeletion := false
    active := true }

/-- What `kernel_memory_object_create` answered. -/
inductive MemoryOutcome where
  | ok (object : Nat)
  | noMemory
  | state
deriving Repr, DecidableEq

/-- The rest of `kernel_shm_get`, once there is an answer to the allocation. -/
def kernelShmGetPublish (s : System) (pending : PendingGet) : MemoryOutcome → Int × System
  | .noMemory => (-kernelENOMEM, s)
  | .state => (-kernelENOSPC, s)
  | .ok object =>
    let seg := newSegment (s.segments pending.slot) pending object
    (seg.shmid, { s.setSegment pending.slot seg with memory := update s.memory object 1 })

/-- The checks of `kernel_shm_at_mm` before it calls the address space. -/
def kernelShmAtLookup (s : System) (cred : Credentials) (shmid : Int) (shmflg : Nat) : Int ⊕ PendingAt :=
  if shmid < 0 then .inl (-kernelEINVAL)
  else
    let slot : Slot := Fin.ofNat 128 (shmid.toNat % shmmni)
    let seg := s.segments slot
    if seg.active = false ∨ seg.shmid ≠ shmid then .inl (-kernelEINVAL)
    else if seg.markedForDeletion then .inl (-kernelEIDRM)
    else
      let requested := if shmflg &&& shmRdonly ≠ 0 then 4 else 6
      let requested := if shmflg &&& shmExec ≠ 0 then requested ||| 1 else requested
      let permission := shmPermission cred seg requested
      if permission ≠ 0 then .inl permission else .inr { slot := slot, shmid := shmid }

def System.attachment? (s : System) (address : Nat) : Option Attachment :=
  s.attachments.find? fun attachment => attachment.address == address

def System.dropAttachment (s : System) (address : Nat) : System :=
  { s with attachments := s.attachments.filter fun attachment => attachment.address != address }

def System.putAttachment (s : System) (attachment : Attachment) : System :=
  { s.dropAttachment attachment.address with
    attachments := attachment :: (s.dropAttachment attachment.address).attachments }

/-- Traps unless the attachment and its segment still belong together. -/
def attachmentValid (s : System) (attachment : Attachment) : Bool :=
  let seg := s.segments attachment.segment
  attachment.references != 0 && seg.active && seg.shmid == attachment.shmid && seg.memory == some attachment.memory && seg.attachments != 0

/-- `kernel_shm_attachment_create` once the gate is held; `none` among the
outcomes is an exhausted heap. -/
def kernelShmAttachmentCreate (s : System) (slot : Slot) (start stop : Nat) (outcome : Option Nat) : Option (Option Nat × System) :=
  let seg := s.segments slot
  match seg.memory with
  | none => none
  | some object =>
    if seg.active = false ∨ stop ≤ start ∨ seg.attachments = uint32Max then none
    else
      match outcome with
      | none => some (none, s)
      | some address =>
        (kernelMemoryObjectAcquire s object).map fun s =>
          let s := s.putAttachment
            { address := address, segment := slot, memory := object, start := start, stop := stop,
              shmid := seg.shmid, references := 1 }
          (some address, s.setSegment slot { seg with attachments := seg.attachments + 1 })

def kernelShmAttachmentAcquire (s : System) (address : Nat) : Option System :=
  match s.attachment? address with
  | none => none
  | some attachment =>
    if attachmentValid s attachment = false ∨ attachment.references = uint32Max then none
    else some (s.putAttachment { attachment with references := attachment.references + 1 })

def kernelShmAttachmentRelease (s : System) (address : Nat) : Option System :=
  match s.attachment? address with
  | none => none
  | some attachment =>
    if attachmentValid s attachment = false then none
    else if attachment.references - 1 ≠ 0 then
      some (s.putAttachment { attachment with references := attachment.references - 1 })
    else
      match kernelMemoryObjectRelease s attachment.memory with
      | none => none
      | some s =>
        let seg := s.segments attachment.segment
        let seg := { seg with attachments := seg.attachments - 1 }
        let s := (s.setSegment attachment.segment seg).dropAttachment address
        if seg.nattch = 0 ∧ seg.attachments = 0 ∧ seg.markedForDeletion then
          kernelShmDestroySegmentLocked s attachment.segment
        else some s

def kernelShmAttachmentOpen (s : System) (address : Nat) : Option System :=
  match kernelShmAttachmentAcquire s address with
  | none => none
  | some s =>
    match s.attachment? address with
    | none => none
    | some attachment =>
      let seg := s.segments attachment.segment
      if seg.nattch = uint64Max then none
      else some (s.setSegment attachment.segment { seg with nattch := seg.nattch + 1 })

def kernelShmAttachmentClose (s : System) (address : Nat) : Option System :=
  match s.attachment? address with
  | none => none
  | some attachment =>
    let seg := s.segments attachment.segment
    if attachmentValid s attachment = false ∨ seg.nattch = 0 then none
    else
      kernelShmAttachmentRelease (s.setSegment attachment.segment { seg with nattch := seg.nattch - 1 }) address

inductive Control where
  | lock (limit : Nat)
  | unlock
  | rmid
  | set (uid gid mode : Nat)
deriving Repr, DecidableEq

/-- The commands of `kernel_shm_ctl_mm` that change a segment. -/
def kernelShmCtl (s : System) (cred : Credentials) (shmid : Int) (command : Control) : Option (Int × System) :=
  if shmid < 0 then some (-kernelEINVAL, s)
  else
    let slot : Slot := Fin.ofNat 128 (shmid.toNat % shmmni)
    let seg := s.segments slot
    if seg.active = false ∨ seg.shmid ≠ shmid then some (-kernelEINVAL, s)
    else
      match command with
      | .lock limit =>
        if ¬ cred.capable capIpcLock ∧ (cred.euid ≠ seg.uid ∧ cred.euid ≠ seg.cuid) then
          some (-kernelEPERM, s)
        else if limit = 0 then some (-kernelEPERM, s)
        else if seg.lockAccount.isSome then some (0, s)
        else
          match kernelUidAccountShmLock s cred.account seg.pages (limit / pageSize) with
          | none => none
          | some (status, s) =>
            if status ≠ 0 then some (status, s)
            else some (0, s.setSegment slot { seg with lockAccount := some cred.account })
      | .unlock =>
        if ¬ cred.capable capIpcLock ∧ (cred.euid ≠ seg.uid ∧ cred.euid ≠ seg.cuid) then
          some (-kernelEPERM, s)
        else (shmUnlock s slot).map fun s => (0, s)
      | .rmid =>
        if shmOwner cred seg = false then some (-kernelEPERM, s)
        else if seg.nattch = 0 ∧ seg.attachments = 0 then
          (kernelShmDestroySegmentLocked s slot).map fun s => (0, s)
        else some (0, s.setSegment slot { seg with markedForDeletion := true, key := ipcPrivate })
      | .set uid gid mode =>
        if seg.markedForDeletion then some (-kernelEIDRM, s)
        else if shmOwner cred seg = false then some (-kernelEPERM, s)
        else if uid = uint32Max ∨ gid = uint32Max then some (-kernelEINVAL, s)
        else some (0, s.setSegment slot { seg with mode := mode &&& 0o777, uid := uid, gid := gid })

/-- `shmat` is `atLookup`, `atCreate`, `fragmentOpen`, perhaps `objectAcquire`, and `ownerRelease`; `shmdt` is
`ownerAcquire`, a `fragmentClose` for each entry and `ownerRelease`; `fork` and `exit` open and close one fragment for
each entry. -/
inductive Step where
  | getLookup (task : Nat) (cred : Credentials) (key : Int) (size shmflg : Nat)
  | getPublish (task : Nat) (outcome : MemoryOutcome)
  | atLookup (task : Nat) (cred : Credentials) (shmid : Int) (shmflg : Nat)
  | atCreate (task start stop : Nat) (outcome : Option Nat)
  | atAbandon (task : Nat)
  | ownerAcquire (address : Nat)
  | ownerRelease (address : Nat)
  | fragmentOpen (mm address : Nat)
  | fragmentClose (fragment : Fragment)
  | objectAcquire (object : Nat)
  | objectRelease (object : Nat)
  | control (cred : Credentials) (shmid : Int) (command : Control)
deriving Repr, DecidableEq

def System.step (s : System) : Step → Option (Int × System)
  | .getLookup task cred key size shmflg =>
    match kernelShmGetLookup s cred key size shmflg with
    | .inl result => some (result, s)
    | .inr pending => some (0, { s with gets := update s.gets task (some pending) })
  | .getPublish task outcome =>
    match s.gets task with
    | none => none
    | some pending =>
      let (result, s) := kernelShmGetPublish s pending outcome
      some (result, { s with gets := update s.gets task none })
  | .atLookup task cred shmid shmflg =>
    match kernelShmAtLookup s cred shmid shmflg with
    | .inl result => some (result, s)
    | .inr pending => some (0, { s with ats := update s.ats task (some pending) })
  | .atCreate task start stop outcome =>
    match s.ats task with
    | none => none
    | some pending =>
      match kernelShmAttachmentCreate s pending.slot start stop outcome with
      | none => none
      | some (created, s) =>
        let s := { s with ats := update s.ats task none }
        match created with
        | none => some (-kernelENOMEM, s)
        | some address =>
          some (0, { s with
            owners := address :: s.owners
            requests := update s.requests address pending.shmid })
  | .atAbandon task => some (-kernelEINVAL, { s with ats := update s.ats task none })
  | .ownerAcquire address =>
    (kernelShmAttachmentAcquire s address).map fun s => (0, { s with owners := address :: s.owners })
  | .ownerRelease address =>
    (kernelShmAttachmentRelease s address).map fun s => (0, { s with owners := s.owners.erase address })
  | .fragmentOpen mm address =>
    match s.attachment? address with
    | none => none
    | some attachment =>
      (kernelShmAttachmentOpen s address).map fun s =>
        (0, { s with fragments := ⟨mm, address, attachment.segment⟩ :: s.fragments })
  | .fragmentClose fragment =>
    (kernelShmAttachmentClose s fragment.attachment).map fun s =>
      (0, { s with fragments := s.fragments.erase fragment })
  | .objectAcquire object =>
    (kernelMemoryObjectAcquire s object).map fun s => (0, { s with external := object :: s.external })
  | .objectRelease object =>
    (kernelMemoryObjectRelease s object).map fun s =>
      (0, { s with external := s.external.erase object })
  | .control cred shmid command => kernelShmCtl s cred shmid command

end
end BoarOS.Shm
