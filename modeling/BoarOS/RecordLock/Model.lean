import BoarOS.Data.AvlTree

namespace BoarOS.RecordLock
open Data

/-! # Advisory record locks of an inode (`fs/record_lock.c`)

A lock node is linked in the tree of its inode and in the list of its owner.
Both hold the node itself: the model holds its value in both and identifies it by
its address. `none` is a `__builtin_trap`.
-/

def int64Min : Int := -2 ^ 63
def int64Max : Int := 2 ^ 63 - 1
def kernelEAGAIN : Int := 11
def kernelENOLCK : Int := 37

/-- The types 0, 1 and 2 of a request; a lock is never of type `unlock`. -/
inductive LockType where
  | read
  | write
  | unlock
deriving Repr, DecidableEq

structure Lock (State Owner : Type) where
  address : UInt64
  state : State
  owner : Owner
  kind : UInt8
  pid : Int
  type : LockType
  start : Int
  stop : Int
deriving Repr, DecidableEq

abbrev LockTree (State Owner : Type) := AvlTree (Lock State Owner) Int

variable {State Owner : Type}

def before (a b : Lock State Owner) : Bool :=
  a.start < b.start || (a.start == b.start && a.address < b.address)

def treeInsert (root : LockTree State Owner) (lock : Lock State Owner) : LockTree State Owner :=
  root.insert Lock.stop before lock

def treeRemove (root : LockTree State Owner) (lock : Lock State Owner) : Option (LockTree State Owner) :=
  root.remove Lock.stop before (fun node => node.address == lock.address) lock

def ownerInsert (head : List (Lock State Owner)) (lock : Lock State Owner) : List (Lock State Owner) :=
  lock :: head

/-- A node that is in no list has no `owner_previous`. -/
def ownerRemove (head : List (Lock State Owner)) (lock : Lock State Owner) : Option (List (Lock State Owner)) :=
  if head.any (fun node => node.address == lock.address) then
    some (head.eraseP fun node => node.address == lock.address)
  else none

structure Table (State Owner : Type) where
  root : LockTree State Owner
  ownerHead : List (Lock State Owner)

def publish (state : State) (table : Table State Owner) (lock : Lock State Owner) : Table State Owner :=
  let lock := { lock with state := state }
  { root := treeInsert table.root lock, ownerHead := ownerInsert table.ownerHead lock }

def maxEndReaches (start : Int) : LockTree State Owner → Bool
  | .nil => false
  | .node _ _ _ maxEnd _ => maxEnd ≥ start

def touching (lock : Lock State Owner) (start stop : Int) : Bool :=
  lock.start ≤ stop && lock.stop ≥ start

def adjacent (lock : Lock State Owner) (start stop : Int) : Bool :=
  (lock.stop != int64Max && lock.stop + 1 == start) || (stop != int64Max && stop + 1 == lock.start)

/-- The range an edit will cover and the number of nodes it needs. -/
structure Edit where
  start : Int
  stop : Int
  needed : Nat
deriving Repr, DecidableEq

section
variable [DecidableEq Owner] (owner : Owner) (kind : UInt8)

def owned (lock : Lock State Owner) : Bool := lock.owner == owner && lock.kind == kind

def conflict (start stop : Int) (type : LockType) : LockTree State Owner → Option (Lock State Owner)
  | .nil => none
  | .node left root _ maxEnd right =>
    if maxEnd < start then none
    else
      match (if maxEndReaches start left then conflict start stop type left else none) with
      | some found => some found
      | none =>
        if root.start ≤ stop ∧ root.stop ≥ start ∧ (root.owner ≠ owner ∨ root.kind ≠ kind) ∧
            (type = .write ∨ root.type = .write) then some root
        else if root.start ≤ stop then conflict start stop type right
        else none

structure LockConflict (Owner : Type) where
  start : Int
  stop : Int
  owner : Option Owner
  pid : Int
  type : LockType
  kind : UInt8

def kernelRecordLockGet (root : LockTree State Owner) (start stop : Int) (type : LockType)
    (found : LockConflict Owner) : LockConflict Owner :=
  match conflict owner kind start stop type root with
  | none => { found with type := .unlock, owner := none, kind := 0 }
  | some lock =>
    { type := lock.type, owner := some lock.owner, kind := lock.kind, start := lock.start,
      stop := lock.stop, pid := if lock.kind ≠ 0 then -1 else lock.pid }

def Edit.visit (type : LockType) (edit : Edit) (lock : Lock State Owner) : Edit :=
  if lock.owner = owner ∧ lock.kind = kind then
    if type ≠ .unlock ∧ lock.type = type ∧
        (touching lock edit.start edit.stop ∨ adjacent lock edit.start edit.stop) then
      { edit with
        start := if lock.start < edit.start then lock.start else edit.start
        stop := if lock.stop > edit.stop then lock.stop else edit.stop }
    else if lock.start < edit.start ∧ lock.stop > edit.stop then { edit with needed := edit.needed + 1 }
    else edit
  else edit

def Edit.first (edit : Edit) (type : LockType) : Int :=
  if type ≠ .unlock ∧ edit.start ≠ int64Min then edit.start - 1 else edit.start

def Edit.last (edit : Edit) (type : LockType) : Int :=
  if type ≠ .unlock ∧ edit.stop ≠ int64Max then edit.stop + 1 else edit.stop

def prepareEdit (type : LockType) : LockTree State Owner → Edit → Edit
  | .nil, edit => edit
  | .node left root _ maxEnd right, edit =>
    if maxEnd < edit.first type then edit
    else
      let edit := prepareEdit type left edit
      if root.start > edit.last type then edit
      else prepareEdit type right (edit.visit owner kind type root)

def extractOwned (start stop : Int) : LockTree State Owner → List (Lock State Owner) → LockTree State Owner × List (Lock State Owner)
  | .nil, removed => (.nil, removed)
  | .node left root height maxEnd right, removed =>
    if maxEnd < start then (.node left root height maxEnd right, removed)
    else
      let (left, removed) := extractOwned start stop left removed
      if root.start > stop then (left.joinRoot Lock.stop root right, removed)
      else
        let (right, removed) := extractOwned start stop right removed
        if root.owner ≠ owner ∨ root.kind ≠ kind ∨ root.stop < start then
          (left.joinRoot Lock.stop root right, removed)
        else (left.joinTrees Lock.stop right, root :: removed)

/-- The heap's answers in order; one that is missing is `EMPTY`. -/
def allocateSpares : Nat → List (Option UInt64) → List UInt64 → Option (List UInt64)
  | 0, _, spares => some spares
  | _ + 1, [], _ => none
  | _ + 1, none :: _, _ => none
  | needed + 1, some fresh :: outcomes, spares => allocateSpares needed outcomes (fresh :: spares)

/-- Publishes what is left of the detached nodes outside the edited range. -/
def replaceOwned (state : State) (start stop : Int) :
    List (Lock State Owner) → Table State Owner → List UInt64 → Option (Table State Owner × List UInt64)
  | [], table, spares => some (table, spares)
  | old :: next, table, spares =>
    match ownerRemove table.ownerHead old with
    | none => none
    | some ownerHead =>
      let table := { table with ownerHead := ownerHead }
      if old.start < start then
        let table := publish state table { old with stop := start - 1 }
        if old.stop > stop then
          match spares with
          | [] => none
          | tail :: spares =>
            replaceOwned state start stop next (publish state table
                { address := tail, state := state, owner := owner, kind := kind, pid := old.pid,
                  type := old.type, start := stop + 1, stop := old.stop }) spares
        else replaceOwned state start stop next table spares
      else if old.stop > stop then
        replaceOwned state start stop next (publish state table { old with start := stop + 1, stop := old.stop }) spares
      else replaceOwned state start stop next table spares

/-- The edit once its nodes are there. -/
def commitEdit (state : State) (table : Table State Owner) (pid : Int) (type : LockType) (edit : Edit)
    (spares : List UInt64) : Option (Table State Owner) :=
  let (root, old) := extractOwned owner kind edit.start edit.stop table.root []
  match replaceOwned owner kind state edit.start edit.stop old { table with root := root } spares with
  | none => none
  | some (table, spares) =>
    if type ≠ .unlock then
      match spares with
      | [] => none
      | fresh :: spares =>
        if spares ≠ [] then none
        else
          some (publish state table
            { address := fresh, state := state, owner := owner, kind := kind, pid := pid,
              type := type, start := edit.start, stop := edit.stop })
    else if spares ≠ [] then none
    else some table

/-- A call that no other call interrupts. -/
def kernelRecordLockSet (state : State) (table : Table State Owner) (pid : Int) (start stop : Int)
    (type : LockType) (outcomes : List (Option UInt64)) : Option (Int × Table State Owner) :=
  if type ≠ .unlock ∧ (conflict owner kind start stop type table.root).isSome then
    some (-kernelEAGAIN, table)
  else
    let edit := prepareEdit owner kind type table.root
      { start := start, stop := stop, needed := if type = .unlock then 0 else 1 }
    match allocateSpares edit.needed outcomes [] with
    | none => some (-kernelENOLCK, table)
    | some spares => (commitEdit owner kind state table pid type edit spares).map fun table => (0, table)

end

section
variable [DecidableEq State]

def releaseOwned (state : State) : List (Lock State Owner) → Table State Owner → Option (Table State Owner)
  | [], table => some table
  | lock :: next, table =>
    if lock.state = state then
      match treeRemove table.root lock with
      | none => none
      | some root =>
        match ownerRemove table.ownerHead lock with
        | none => none
        | some ownerHead => releaseOwned state next { root := root, ownerHead := ownerHead }
    else releaseOwned state next table

def kernelRecordLockRelease (state : State) (table : Table State Owner) : Option (Table State Owner) :=
  releaseOwned state table.ownerHead table

end

structure Locks (State Owner : Type) where
  roots : State → LockTree State Owner
  owners : Owner → UInt8 → List (Lock State Owner)

inductive Request (State Owner : Type) where
  | set (state : State) (owner : Owner) (kind : UInt8) (pid start stop : Int) (type : LockType)
      (outcomes : List (Option UInt64))
  | release (state : State) (owner : Owner) (kind : UInt8)

def Locks.empty : Locks State Owner := { roots := fun _ => .nil, owners := fun _ _ => [] }

variable [DecidableEq State] [DecidableEq Owner]

def Locks.table (locks : Locks State Owner) (state : State) (owner : Owner) (kind : UInt8) : Table State Owner :=
  { root := locks.roots state, ownerHead := locks.owners owner kind }

def Locks.put (locks : Locks State Owner) (state : State) (owner : Owner) (kind : UInt8) (table : Table State Owner) : Locks State Owner :=
  { roots := Function.update locks.roots state table.root
    owners := Function.update locks.owners owner (Function.update (locks.owners owner) kind table.ownerHead) }

def Locks.call (locks : Locks State Owner) : Request State Owner → Option (Int × Locks State Owner)
  | .set state owner kind pid start stop type outcomes =>
    (kernelRecordLockSet owner kind state (locks.table state owner kind) pid start stop type
      outcomes).map fun (result, table) => (result, locks.put state owner kind table)
  | .release state owner kind =>
    (kernelRecordLockRelease state (locks.table state owner kind)).map fun table =>
      (0, locks.put state owner kind table)

/-! `allocate` may switch to another task. The source between two allocations is one step: a call enters, tests for
conflicts and plans its edit, waits for each node, and edits when it has the last one. -/

structure SetCall (State Owner : Type) where
  state : State
  owner : Owner
  kind : UInt8
  pid : Int
  start : Int
  stop : Int
  type : LockType
  range : 0 ≤ start ∧ start ≤ stop ∧ stop ≤ int64Max

/-- A call inside `allocate`, with the edit it planned and the nodes it has. -/
structure Pending (State Owner : Type) where
  call : SetCall State Owner
  edit : Edit
  spares : List UInt64
  waits : spares.length < edit.needed

structure Shared (State Owner Task : Type) where
  locks : Locks State Owner
  pending : Task → Option (Pending State Owner)

inductive SharedStep (State Owner Task : Type) where
  | enter (task : Task) (call : SetCall State Owner)
  | resume (task : Task) (outcome : Option UInt64)
  | release (state : State) (owner : Owner) (kind : UInt8)

section
variable (call : SetCall State Owner) (locks : Locks State Owner)

def SetCall.Blocked : Prop :=
  call.type ≠ .unlock ∧
    (conflict call.owner call.kind call.start call.stop call.type (locks.roots call.state)).isSome

instance : Decidable (call.Blocked locks) := by unfold SetCall.Blocked; infer_instance

def SetCall.plan : Edit :=
  prepareEdit call.owner call.kind call.type (locks.roots call.state)
    { start := call.start, stop := call.stop, needed := if call.type = .unlock then 0 else 1 }

def SetCall.table : Table State Owner := locks.table call.state call.owner call.kind

def SetCall.put (table : Table State Owner) : Locks State Owner :=
  locks.put call.state call.owner call.kind table

def SetCall.commit (edit : Edit) (spares : List UInt64) : Option (Table State Owner) :=
  commitEdit call.owner call.kind call.state (call.table locks) call.pid call.type edit spares

end

variable {Task : Type} [DecidableEq Task]

def Shared.proceed (s : Shared State Owner Task) (task : Task) (call : SetCall State Owner) (edit : Edit)
    (spares : List UInt64) : Option (Option Int × Shared State Owner Task) :=
  if waits : spares.length < edit.needed then
    some (none, { s with pending := Function.update s.pending task (some ⟨call, edit, spares, waits⟩) })
  else
    (call.commit s.locks edit spares).map fun table =>
      (some 0, { locks := call.put s.locks table, pending := Function.update s.pending task none })

/-- The answer of a call that returned, and the tables. -/
def Shared.step (s : Shared State Owner Task) :
    SharedStep State Owner Task → Option (Option Int × Shared State Owner Task)
  | .enter task call =>
    if call.Blocked s.locks then some (some (-kernelEAGAIN), s)
    else s.proceed task call (call.plan s.locks) []
  | .resume task outcome =>
    match s.pending task, outcome with
    | none, _ => some (none, s)
    | some _, none => some (some (-kernelENOLCK), { s with pending := Function.update s.pending task none })
    | some waiting, some fresh => s.proceed task waiting.call waiting.edit (fresh :: waiting.spares)
  | .release state owner kind =>
    (kernelRecordLockRelease state (s.locks.table state owner kind)).map fun table =>
      (some 0, { s with locks := s.locks.put state owner kind table })

end BoarOS.RecordLock
