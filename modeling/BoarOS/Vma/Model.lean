import BoarOS.Page
import BoarOS.Data.PartitionPoint
import BoarOS.Data.Segment

namespace BoarOS.Vma
open Data

/-! # The virtual memory area set

The definitions follow `mm/vma.c`. A set owns a raw array of descriptors of which the first `count` are live.
`World` is the kernel heap, with a status for each request, and the log of the attachment calls. -/

inductive Status where
  | ok | invalidArgument | noMemory | conflict | notFound | access | state
deriving DecidableEq, Repr

inductive Kind where
  | anonymous | filePrivate | elfPrivate | anonShared | fileShared | sysvShm
deriving DecidableEq, Repr

inductive Role where
  | none | elf | vdso | stack | heap | mmap | sysvShm
deriving DecidableEq, Repr

inductive FaultPolicy where
  | residentRequired | demandZero | filePrivate | elf | anonShared | fileShared
deriving DecidableEq, Repr

inductive EditKind where
  | remove | replace | protect | flags
deriving DecidableEq, Repr

/-- Status codes of `kernel_heap_resize` and `kernel_heap_allocate_zeroed`. -/
inductive HeapStatus where
  | ok | invalid | empty | overflow | doubleFree | state
deriving DecidableEq, Repr

inductive Trap where
  | trap
deriving DecidableEq, Repr

variable [PageGeometry]

def uint64Max : UInt64 := 0xffffffffffffffff
def uint32Max : Nat := 4294967295
def initialCapacity : Nat := 8
def allPermissions : BitVec 32 := 7
def writePermission : BitVec 32 := 2
def flagLocked : BitVec 32 := 1
def flagLockOnfault : BitVec 32 := 2
def lockMask : BitVec 32 := 3
def flagDontfork : BitVec 32 := 4
def allFlags : BitVec 32 := 15

/-- `struct kernel_vma`; `stop` is the field `end`, and a null pointer is 0. -/
structure KernelVma where
  start : UInt64
  stop : UInt64
  backingOffset : UInt64
  permissions : BitVec 32
  maximumPermissions : BitVec 32
  kind : Kind
  role : Role
  faultPolicy : FaultPolicy
  flags : BitVec 32
  backing : Nat
  shmAttachment : Nat
deriving DecidableEq, Repr

/-- `struct kernel_vma_set`. `self` is the address of the object, which edits
compare, and `allocated` says that the `entries` pointer is not null. -/
structure KernelVmaSet where
  self : Nat
  entries : Nat → KernelVma
  allocated : Bool
  count : Nat
  capacity : Nat
  generation : Nat
  totalBytes : Nat
  dataBytes : Nat
  lockedBytes : Nat

/-- `struct kernel_vma_edit`; a null `set` is `none`. -/
structure KernelVmaEdit where
  set : Option Nat
  generation : Nat
  start : UInt64
  stop : UInt64
  permissions : BitVec 32
  flags : BitVec 32
  flagsMask : BitVec 32
  kind : EditKind
  replacement : KernelVma

structure KernelVmaRemap where
  set : Nat
  generation : Nat
  start : UInt64
  stop : UInt64
  replacement : KernelVma

/-- `struct kernel_memory_limits`, as the current task reports it. -/
structure KernelMemoryLimits where
  dataSoft : Nat
  dataHard : Nat
  addressSpace : Nat

inductive ShmCall where
  | attachmentOpen (attachment : Nat)
  | attachmentClose (attachment : Nat)
deriving DecidableEq, Repr

/-- The other modules: the heap's answer to each request, how many requests
were made, and the attachment calls so far. -/
structure World where
  replies : Nat → HeapStatus
  requests : Nat
  shm : List ShmCall

def World.shmAttachmentOpen (world : World) (vma : KernelVma) : World :=
  if vma.shmAttachment ≠ 0 then
    { world with shm := world.shm ++ [.attachmentOpen vma.shmAttachment] }
  else world

def World.shmAttachmentClose (world : World) (vma : KernelVma) : World :=
  if vma.shmAttachment ≠ 0 then
    { world with shm := world.shm ++ [.attachmentClose vma.shmAttachment] }
  else world

namespace KernelVma

def blank : KernelVma where
  start := 0
  stop := 0
  backingOffset := 0
  permissions := 0
  maximumPermissions := 0
  kind := .anonymous
  role := .none
  faultPolicy := .residentRequired
  flags := 0
  backing := 0
  shmAttachment := 0

def privateDataMapping (vma : KernelVma) : Bool :=
  vma.role ≠ .stack && (vma.kind = .anonymous || vma.kind = .filePrivate || vma.kind = .elfPrivate)

def isData (vma : KernelVma) : Bool :=
  vma.permissions &&& writePermission ≠ 0 && vma.privateDataMapping

/-- The offset bound and the backing that every non-anonymous kind needs. -/
def backed (vma : KernelVma) (policy : FaultPolicy) : Bool :=
  vma.backing ≠ 0 && vma.faultPolicy = policy && !(uint64Max - (vma.stop - vma.start) < vma.backingOffset)

/-- `vma_valid`, one conjunct for each early `return 0` of the source. The
enumeration range checks are carried by the types. -/
def valid (vma : KernelVma) : Bool :=
  vma.start < vma.stop &&
  vma.flags &&& ~~~allFlags = 0 &&
  vma.flags &&& lockMask ≠ flagLockOnfault &&
  vma.maximumPermissions &&& ~~~allPermissions = 0 &&
  vma.permissions &&& allPermissions &&& ~~~vma.maximumPermissions = 0 &&
  (vma.kind = .sysvShm || vma.shmAttachment = 0) &&
  match vma.kind with
  | .anonymous =>
    vma.backingOffset = 0 && vma.backing = 0 && vma.faultPolicy ≠ .filePrivate && vma.faultPolicy ≠ .elf && vma.faultPolicy ≠ .anonShared
  | .filePrivate => vma.backed .filePrivate
  | .elfPrivate => vma.backed .elf
  | .anonShared => vma.backed .anonShared && vma.backingOffset &&& UInt64.ofNat pageMask = 0
  | .sysvShm =>
    vma.backed .anonShared && vma.shmAttachment ≠ 0 && vma.backingOffset &&& UInt64.ofNat pageMask = 0
  | .fileShared => vma.backed .fileShared

def canMerge (left right : KernelVma) : Bool :=
  if left.stop ≠ right.start ∨ left.permissions ≠ right.permissions ∨
      left.kind ≠ right.kind ∨ left.role ≠ right.role ∨
      left.faultPolicy ≠ right.faultPolicy ∨ left.flags ≠ right.flags ∨
      left.backing ≠ right.backing ∨ left.shmAttachment ≠ right.shmAttachment ∨
      left.maximumPermissions ≠ right.maximumPermissions then
    false
  else if left.kind = .sysvShm ∨ right.kind = .sysvShm then
    false
  else if left.kind = .anonymous then
    true
  else
    left.backingOffset ≤ uint64Max - (left.stop - left.start) && left.backingOffset + (left.stop - left.start) = right.backingOffset

end KernelVma
namespace KernelVmaSet
variable (set : KernelVmaSet)

def live : List KernelVma := segment set.entries 0 set.count

def valid : Bool :=
  (!set.allocated && set.count = 0 && set.capacity = 0) || (set.allocated && set.capacity ≠ 0 && set.count ≤ set.capacity)

structure Bytes where
  total : Nat
  data : Nat
  locked : Nat
deriving DecidableEq

def recountLoop (entries : Nat → KernelVma) : Nat → Nat → Bytes → Except Trap Bytes
  | 0, _, bytes => .ok bytes
  | remaining + 1, index, bytes =>
    let length := ((entries index).stop - (entries index).start).toNat
    if uint64Max.toNat - bytes.total < length then .error .trap
    else recountLoop entries remaining (index + 1) {
      total := bytes.total + length
      data := if (entries index).isData then bytes.data + length else bytes.data
      locked :=
        if (entries index).flags &&& flagLocked ≠ 0 then bytes.locked + length
        else bytes.locked }

def recountBytes : Except Trap KernelVmaSet :=
  match recountLoop set.entries set.count 0 ⟨0, 0, 0⟩ with
  | .error fault => .error fault
  | .ok bytes =>
    .ok { set with
      totalBytes := bytes.total, dataBytes := bytes.data, lockedBytes := bytes.locked }

def nextGeneration : KernelVmaSet :=
  { set with generation := (set.generation + 1) % 2 ^ 64 }

def lowerBound (start : UInt64) : Nat :=
  partitionPoint (fun index => (set.entries index).start < start) set.count 0 set.count

def growCapacity (required : Nat) : Nat → Nat → Option Nat
  | 0, _ => none
  | fuel + 1, capacity =>
    if capacity < required then
      if uint32Max / 2 < capacity then none
      else growCapacity required fuel (capacity * 2)
    else some capacity

def reserveEntries (required : Nat) (world : World) : Status × KernelVmaSet × World :=
  if required ≤ set.capacity then (.ok, set, world)
  else
    match growCapacity required 33
        (if set.capacity = 0 then initialCapacity else set.capacity) with
    | none => (.noMemory, set, world)
    | some capacity =>
      let asked := { world with requests := world.requests + 1 }
      match world.replies world.requests with
      | .empty => (.noMemory, set, asked)
      | .ok => (.ok, { set with allocated := true, capacity }, asked)
      | _ => (.state, set, asked)

def eraseEntry (index : Nat) (world : World) : KernelVmaSet × World :=
  ({ set with
      entries := copyAscending index (index + 1) (set.count - (index + 1)) 0 set.entries
      count := set.count - 1 },
    world.shmAttachmentClose (set.entries index))

def moveEntries (destination source count : Nat) : KernelVmaSet :=
  if count = 0 ∨ destination = source then set
  else if destination < source then
    { set with entries := copyAscending destination source count 0 set.entries }
  else { set with entries := copyDescending destination source count set.entries }

def setEntry (index : Nat) (vma : KernelVma) : KernelVmaSet :=
  { set with entries := Function.update set.entries index vma }

/-- The tail both `insert_entry` and `split_at` end with: make room at `index`,
write the descriptor there and count it. -/
def placeEntry (index : Nat) (vma : KernelVma) : KernelVmaSet :=
  let moved := (set.moveEntries (index + 1) index (set.count - index)).setEntry index vma
  { moved with count := moved.count + 1 }

def insertEntry (vma : KernelVma) (world : World) : Status × KernelVmaSet × World :=
  let index := set.lowerBound vma.start
  let left := set.entries (index - 1)
  let right := set.entries index
  if (0 < index ∧ vma.start < left.stop) ∨ (index < set.count ∧ right.start < vma.stop) then
    (.conflict, set, world)
  else if 0 < index ∧ left.canMerge vma then
    let grown := { left with stop := vma.stop }
    let joined := set.setEntry (index - 1) grown
    if index < set.count ∧ grown.canMerge right then
      let (erased, world) :=
        (joined.setEntry (index - 1) { grown with stop := right.stop }).eraseEntry index world
      (.ok, erased, world)
    else (.ok, joined, world)
  else if index < set.count ∧ vma.canMerge right then
    (.ok, set.setEntry index { vma with stop := right.stop }, world)
  else if set.count = uint32Max then (.noMemory, set, world)
  else
    match set.reserveEntries (set.count + 1) world with
    | (.ok, reserved, world) =>
      (.ok, reserved.placeEntry index vma, world.shmAttachmentOpen vma)
    | (status, reserved, world) => (status, reserved, world)

/-- `address + (address != UINT64_MAX ? 1U : 0U)`. -/
def searchAddress (address : UInt64) : UInt64 :=
  address + if address ≠ uint64Max then 1 else 0

def splitAt (address : UInt64) (world : World) : Status × KernelVmaSet × World :=
  let index := set.lowerBound (searchAddress address)
  let left := set.entries (index - 1)
  if index = 0 ∨ address ≤ left.start ∨ left.stop ≤ address then (.ok, set, world)
  else if set.capacity ≤ set.count then (.state, set, world)
  else
    let delta := address - left.start
    if left.kind ≠ .anonymous ∧ uint64Max - delta < left.backingOffset then (.state, set, world)
    else
      let right := { left with
        start := address
        backingOffset :=
          if left.kind ≠ .anonymous then left.backingOffset + delta else left.backingOffset }
      let cut := set.setEntry (index - 1) { left with stop := address }
      (.ok, cut.placeEntry index right, world.shmAttachmentOpen right)

def mergeLoop : Nat → Nat → Nat → (Nat → KernelVma) → World → Nat × (Nat → KernelVma) × World
  | 0, output, _, entries, world => (output, entries, world)
  | remaining + 1, output, index, entries, world =>
    if (entries output).canMerge (entries index) then
      mergeLoop remaining output (index + 1) (Function.update entries output
          { entries output with stop := (entries index).stop })
        (world.shmAttachmentClose (entries index))
    else
      mergeLoop remaining (output + 1) (index + 1) (if output + 1 ≠ index then
          Function.update entries (output + 1) (entries index)
        else entries)
        world

def mergeAll (world : World) : KernelVmaSet × World :=
  if set.count = 0 then (set, world)
  else
    let (output, entries, world) := mergeLoop (set.count - 1) 0 1 set.entries world
    ({ set with entries, count := output + 1 }, world)

end KernelVmaSet
end BoarOS.Vma
