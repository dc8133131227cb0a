import BoarOS.Data.KeyIndex

namespace BoarOS.Ipc
open Data

/-! # Identifiers of System V objects (`kernel/sem.c`, `kernel/msg.c`)

Semaphore sets and message queues are named alike: a slot that a rotating cursor finds, a sequence number for each
slot that counts removals, and an optional key. A step is one section under the lock of the table. -/

def kernelSEMMNI : Nat := 32000
def kernelSEMMSL : Nat := 32000
def kernelSEMMNS : Nat := 1024000000
def kernelMSGMNI : Nat := 32000
def kernelIPCPRIVATE : UInt32 := 0
def kernelIPCCREAT : UInt32 := 0x200
def kernelEPERM : Int := 1
def kernelENOENT : Int := 2
def kernelEINVAL : Int := 22
def kernelENOSPC : Int := 28
def kernelEIDRM : Int := 43

/-- What the table knows of a `struct sem_set` or a `struct msg_queue`; a queue has no members. `born` is the
number of removals that its slot had seen. -/
structure Object where
  slot : Nat
  key : UInt32
  seq : UInt16
  id : Int
  nsems : Nat
  removed : Bool
  born : Nat
deriving DecidableEq

/-- `sem_table` or `msg_table`; `removals` counts what `sequence` keeps modulo its width. -/
structure Table where
  slots : KeyIndex
  keys : KeyIndex
  count : Nat
  members : Nat
  nextSlot : Nat
  sequence : Nat → UInt16
  objects : Nat → Option Object
  removals : Nat → Nat

def Table.empty : Table :=
  { slots := .nil, keys := .nil, count := 0, members := 0, nextSlot := 0, sequence := fun _ => 0
    objects := fun _ => none, removals := fun _ => 0 }

/-- `(int32_t)(((uint32_t)seq << 15) | slot)`. -/
def idOf (seq : UInt16) (slot : Nat) : Int := (BitVec.ofNat 32 (seq.toNat <<< 15 ||| slot)).toInt

def findSlot (slots : KeyIndex) (limit : Nat) : Nat → Nat → Option Nat
  | 0, _ => none
  | rounds + 1, slot =>
    match slots.find slot with
    | some _ => findSlot slots limit rounds ((slot + 1) % limit)
    | none => some slot

def Table.candidate (table : Table) (slot : Nat) (key : UInt32) (nsems : Nat) : Object :=
  { slot := slot, key := key, seq := table.sequence slot, id := idOf (table.sequence slot) slot, nsems := nsems
    removed := false, born := table.removals slot }

def Table.place (table : Table) (limit address slot : Nat) (key : UInt32) (nsems : Nat) : Table :=
  { table with
    nextSlot := (slot + 1) % limit
    slots := table.slots.insertNode ⟨slot, address⟩
    keys := if key ≠ kernelIPCPRIVATE then table.keys.insertNode ⟨key.toNat, address⟩ else table.keys
    count := table.count + 1
    members := table.members + nsems
    objects := Function.update table.objects address (some (table.candidate slot key nsems)) }

/-- The branch of `kernel_sem_get` and `kernel_msg_get` that publishes the candidate. -/
def Table.publish (table : Table) (limit address : Nat) (key : UInt32) (nsems : Nat) : Option (Int × Table) :=
  (findSlot table.slots limit limit table.nextSlot).map fun slot =>
    ((table.candidate slot key nsems).id, table.place limit address slot key nsems)

inductive Answer where
  | found (object : Nat)
  | error (code : Int)
  | allocate
  | created (id : Int)
deriving DecidableEq

def Table.findKey (table : Table) (key : UInt32) : Option KeyNode :=
  if key ≠ kernelIPCPRIVATE then table.keys.find key.toNat else none

def kernelSemGet (table : Table) (key : UInt32) (nsems : Nat) (flags : UInt32) (candidate : Option Nat) : Option (Answer × Table) :=
  match table.findKey key with
  | some node => some (.found node.owner, table)
  | none =>
    if key ≠ kernelIPCPRIVATE ∧ flags &&& kernelIPCCREAT = 0 then some (.error (-kernelENOENT), table)
    else if nsems = 0 then some (.error (-kernelEINVAL), table)
    else if table.count = kernelSEMMNI ∨ nsems > kernelSEMMNS - table.members then
      some (.error (-kernelENOSPC), table)
    else match candidate with
      | none => some (.allocate, table)
      | some address => (table.publish kernelSEMMNI address key nsems).map fun done => (.created done.1, done.2)

def kernelMsgGet (table : Table) (key : UInt32) (flags : UInt32) (candidate : Option Nat) : Option (Answer × Table) :=
  match table.findKey key with
  | some node => some (.found node.owner, table)
  | none =>
    if key ≠ kernelIPCPRIVATE ∧ flags &&& kernelIPCCREAT = 0 then some (.error (-kernelENOENT), table)
    else if table.count = kernelMSGMNI then some (.error (-kernelENOSPC), table)
    else match candidate with
      | none => some (.allocate, table)
      | some address => (table.publish kernelMSGMNI address key 0).map fun done => (.created done.1, done.2)

def Table.withdraw (table : Table) (address : Nat) (object : Object) (slots keys : KeyIndex) : Table :=
  { table with
    slots := slots, keys := keys, count := table.count - 1, members := table.members - object.nsems
    sequence := Function.update table.sequence object.slot (table.sequence object.slot + 1)
    objects := Function.update table.objects address (some { object with removed := true })
    removals := Function.update table.removals object.slot (table.removals object.slot + 1) }

/-- The section of `set_remove` and `queue_remove` under both locks; removing a node that is not in its tree
traps. -/
def Table.remove (table : Table) (address : Nat) (owner : Bool) : Option (Int × Table) :=
  match table.objects address with
  | none => none
  | some object =>
    if object.removed then some (-kernelEIDRM, table)
    else if !owner then some (-kernelEPERM, table)
    else match table.slots.removeNode ⟨object.slot, address⟩,
        (if object.key ≠ kernelIPCPRIVATE then table.keys.removeNode ⟨object.key.toNat, address⟩ else some table.keys) with
      | some slots, some keys => some (0, table.withdraw address object slots keys)
      | _, _ => none

def Table.lookup (table : Table) (id : Int) (bySlot : Bool) : Option Nat :=
  if id < 0 then none
  else match table.slots.find (if bySlot then id.toNat else id.toNat &&& 32767) with
    | none => none
    | some node =>
      if bySlot || (table.objects node.owner).any (·.id == id) then some node.owner else none

inductive Kind where
  | sem
  | msg
deriving DecidableEq

def Kind.limit : Kind → Nat
  | .sem => kernelSEMMNI
  | .msg => kernelMSGMNI

def Kind.get (kind : Kind) (table : Table) (key : UInt32) (nsems : Nat) (flags : UInt32) (candidate : Option Nat) :
    Option (Answer × Table) :=
  match kind with
  | .sem => kernelSemGet table key nsems flags candidate
  | .msg => kernelMsgGet table key flags candidate

/-- The tables that rounds of a get and removals lead to; a candidate is a fresh allocation. -/
inductive Reachable (kind : Kind) : Table → Prop where
  | empty : Reachable kind Table.empty
  | get {table after : Table} {key flags : UInt32} {nsems : Nat} {candidate : Option Nat} {answer : Answer} :
      Reachable kind table → (∀ address, candidate = some address → table.objects address = none) →
      nsems ≤ kernelSEMMSL → kind.get table key nsems flags candidate = some (answer, after) → Reachable kind after
  | remove {table after : Table} {address : Nat} {owner : Bool} {result : Int} :
      Reachable kind table → table.remove address owner = some (result, after) → Reachable kind after

end BoarOS.Ipc
