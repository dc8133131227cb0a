import BoarOS.Vma.Model

namespace BoarOS.Vma
open Data

variable [PageGeometry]

namespace KernelVmaSet
variable (set : KernelVmaSet)

def unlocked (vma : KernelVma) : KernelVma := { vma with flags := vma.flags &&& ~~~lockMask }

def clearLocks (world : World) : Except Trap (KernelVmaSet × World) :=
  if !set.valid then .error .trap
  else
    let cleared := { set with
      entries := mapRange unlocked set.count 0 set.entries
      lockedBytes := 0 }
    let (merged, world) := cleared.mergeAll world
    .ok (merged.nextGeneration, world)

/-- `kernel_vma_set_create`; `self` is the address the heap hands out. -/
def create (self : Nat) (world : World) : Status × Option KernelVmaSet × World :=
  let asked := { world with requests := world.requests + 1 }
  match world.replies world.requests with
  | .ok =>
    (.ok, some {
      self, entries := fun _ => KernelVma.blank, allocated := false, count := 0
      capacity := 0, generation := 0, totalBytes := 0, dataBytes := 0, lockedBytes := 0 }, asked)
  | .empty => (.noMemory, none, asked)
  | _ => (.state, none, asked)

def appendEntry (vma : KernelVma) : KernelVmaSet :=
  { set.setEntry set.count vma with count := set.count + 1 }

def forkLoop (source : KernelVmaSet) : Nat → Nat → KernelVmaSet → World → KernelVmaSet × World
  | 0, _, working, world => (working, world)
  | remaining + 1, index, working, world =>
    if (source.entries index).flags &&& flagDontfork ≠ 0 then
      forkLoop source remaining (index + 1) working world
    else
      let entry := unlocked (source.entries index)
      forkLoop source remaining (index + 1) (working.appendEntry entry) (world.shmAttachmentOpen entry)

def closeLoop (entries : Nat → KernelVma) : Nat → Nat → World → World
  | 0, _, world => world
  | remaining + 1, index, world =>
    closeLoop entries remaining (index + 1) (world.shmAttachmentClose (entries index))

/-- `kernel_vma_set_destroy`; on success the set no longer exists. -/
def destroy (world : World) : Status × World :=
  if !set.valid then (.invalidArgument, world)
  else if set.allocated then (.ok, closeLoop set.entries set.count 0 world)
  else (.ok, world)

def fork (self : Nat) (world : World) : Except Trap (Status × Option KernelVmaSet × World) :=
  if !set.valid then .ok (.invalidArgument, none, world)
  else
    match create self world with
    | (status, none, world) => .ok (status, none, world)
    | (_, some working, world) =>
      match working.reserveEntries set.count world with
      | (.ok, working, world) =>
        let (copied, world) := forkLoop set set.count 0 working world
        let (merged, world) := copied.mergeAll world
        match merged.recountBytes with
        | .error fault => .error fault
        | .ok counted => .ok (.ok, some counted, world)
      | (status, working, world) => .ok (status, none, (working.destroy world).2)

def insert (vma : KernelVma) (world : World) : Except Trap (Status × KernelVmaSet × World) :=
  if !set.valid || !vma.valid then .ok (.invalidArgument, set, world)
  else if set.generation = uint64Max.toNat then .ok (.state, set, world)
  else
    match set.insertEntry vma world with
    | (.ok, inserted, world) =>
      match inserted.recountBytes with
      | .error fault => .error fault
      | .ok counted => .ok (.ok, counted.nextGeneration, world)
    | (status, inserted, world) => .ok (status, inserted, world)

/-- `kernel_vma_set_overlaps`; `none` stands for the rejected argument. -/
def overlaps (start stop : UInt64) : Option Bool :=
  if !set.valid || stop ≤ start then none
  else
    let index := set.lowerBound start
    some ((0 < index && start < (set.entries (index - 1)).stop) || (index < set.count && (set.entries index).start < stop))

def splitNeeded (address : UInt64) : Bool :=
  let index := set.lowerBound (searchAddress address)
  0 < index && (set.entries (index - 1)).start < address && address < (set.entries (index - 1)).stop

def reserveEditCapacity (start stop : UInt64) (replacement : Bool) (world : World) : Status × KernelVmaSet × World :=
  let extra := (set.splitNeeded start).toNat + (set.splitNeeded stop).toNat
  if uint32Max - extra < set.count then (.noMemory, set, world)
  else if !replacement then set.reserveEntries (set.count + extra) world
  else
    match set.overlaps start stop with
    | none => (.state, set, world)
    | some true => set.reserveEntries (set.count + extra) world
    | some false =>
      if set.count = uint32Max then (.noMemory, set, world)
      else
        set.reserveEntries (if set.count + extra < set.count + 1 then set.count + 1 else set.count + extra) world

def emptyEdit : KernelVmaEdit where
  set := none
  generation := 0
  start := 0
  stop := 0
  permissions := 0
  flags := 0
  flagsMask := 0
  kind := .remove
  replacement := KernelVma.blank

/-- What a prepare leaves: its status, the set, the other modules and the edit
the caller passed in. -/
abbrev Prepared := Status × KernelVmaSet × World × KernelVmaEdit

/-- The end the prepares share: the caller's edit is only written after a
successful reservation. -/
def writeEdit (intended edit : KernelVmaEdit) : Status × KernelVmaSet × World → Prepared
  | (.ok, reserved, world) =>
    (.ok, reserved, world, { intended with set := some reserved.self, generation := reserved.generation })
  | (status, reserved, world) => (status, reserved, world, edit)

def replacementRejected (start stop : UInt64) : Option KernelVma → Bool
  | none => false
  | some vma => !vma.valid || vma.start ≠ start || vma.stop ≠ stop

def replaceEdit (start stop : UInt64) (replacement : Option KernelVma) : KernelVmaEdit :=
  { emptyEdit with
    start, stop
    kind := if replacement.isSome then .replace else .remove
    replacement := replacement.getD KernelVma.blank }

def prepareReplace (start stop : UInt64) (replacement : Option KernelVma) (world : World) (edit : KernelVmaEdit) : Prepared :=
  if !set.valid || stop ≤ start || replacementRejected start stop replacement then
    (.invalidArgument, set, world, edit)
  else if set.generation = uint64Max.toNat then (.state, set, world, edit)
  else
    writeEdit (replaceEdit start stop replacement) edit (set.reserveEditCapacity start stop replacement.isSome world)

def coveredLoop (entries : Nat → KernelVma) (stop : UInt64) : Nat → Nat → UInt64 → Bool
  | 0, _, cursor => stop ≤ cursor
  | remaining + 1, index, cursor =>
    if cursor < stop then
      if cursor < (entries index).start ∨ (entries index).stop ≤ cursor then false
      else coveredLoop entries stop remaining (index + 1) (entries index).stop
    else true

/-- The first entry that can reach past `start`: the lower bound, stepped back
over an entry that contains `start`. -/
def firstReaching (start : UInt64) : Nat :=
  let index := set.lowerBound start
  if 0 < index ∧ start < (set.entries (index - 1)).stop then index - 1 else index

def rangeIsCovered (start stop : UInt64) : Bool :=
  coveredLoop set.entries stop (set.count - set.firstReaching start) (set.firstReaching start) start

/-- Whether the permission walk of `prepare_protect` finds a refusing entry. -/
def deniedLoop (entries : Nat → KernelVma) (stop : UInt64) (permissions : BitVec 32) : Nat → Nat → Bool
  | 0, _ => false
  | remaining + 1, index =>
    if (entries index).start < stop then
      if permissions &&& allPermissions &&& ~~~(entries index).maximumPermissions ≠ 0 then true
      else deniedLoop entries stop permissions remaining (index + 1)
    else false

def protectEdit (start stop : UInt64) (permissions : BitVec 32) : KernelVmaEdit :=
  { emptyEdit with start, stop, permissions, kind := .protect }

def prepareProtect (start stop : UInt64) (permissions : BitVec 32) (world : World) (edit : KernelVmaEdit) : Prepared :=
  if !set.valid || stop ≤ start then (.invalidArgument, set, world, edit)
  else if !set.rangeIsCovered start stop then (.notFound, set, world, edit)
  else if deniedLoop set.entries stop permissions
      (set.count - set.firstReaching start) (set.firstReaching start) then
    (.access, set, world, edit)
  else if set.generation = uint64Max.toNat then (.state, set, world, edit)
  else
    writeEdit (protectEdit start stop permissions) edit (set.reserveEditCapacity start stop false world)

def flagsRejected (mask flags : BitVec 32) : Bool :=
  mask &&& ~~~allFlags ≠ 0 || flags &&& ~~~mask ≠ 0 || (mask &&& lockMask ≠ 0 &&
      (mask &&& lockMask ≠ lockMask || flags &&& lockMask = flagLockOnfault))

def flagsEdit (start stop : UInt64) (mask flags : BitVec 32) : KernelVmaEdit :=
  { emptyEdit with start, stop, flags, flagsMask := mask, kind := .flags }

def prepareFlags (start stop : UInt64) (mask flags : BitVec 32) (world : World) (edit : KernelVmaEdit) : Prepared :=
  if !set.valid || stop ≤ start || flagsRejected mask flags then
    (.invalidArgument, set, world, edit)
  else if !set.rangeIsCovered start stop then (.notFound, set, world, edit)
  else if set.generation = uint64Max.toNat then (.state, set, world, edit)
  else
    writeEdit (flagsEdit start stop mask flags) edit (set.reserveEditCapacity start stop false world)

/-- Whether a conversion of `bytes` to or from writable private data counts
against the data limit. -/
def dataCounted (vma : KernelVma) (permissions : BitVec 32) : Bool :=
  (vma.permissions ^^^ permissions) &&& writePermission ≠ 0 && vma.privateDataMapping

def dataRefused (limits : KernelMemoryLimits) (totalBytes data bytes : Nat) : Bool :=
  let limit := if limits.dataSoft ≠ 0 then limits.dataSoft else limits.dataHard
  totalBytes ≤ limits.addressSpace && bytes ≤ limits.addressSpace - totalBytes && (limit < data || limit - data < bytes)

/-- The reservation and the edit that one entry adds in `prepare_mprotect`; the
last component is `first_split`. -/
def mprotectAdmit (permissions : BitVec 32) (vma : KernelVma) (start finish : UInt64)
    (firstSplit : Nat) (set : KernelVmaSet) (world : World) (edit : KernelVmaEdit) :
    Status × KernelVmaSet × World × KernelVmaEdit × Nat :=
  if edit.set = none ∧ set.generation = uint64Max.toNat then (.state, set, world, edit, firstSplit)
  else
    let firstSplit := if edit.set = none then if vma.start < start then 1 else 0 else firstSplit
    let endSplit := if finish < vma.stop then 1 else 0
    if edit.set = none ∨ endSplit ≠ 0 then
      if uint32Max - (firstSplit + endSplit) < set.count then
        (.noMemory, set, world, edit, firstSplit)
      else
        match set.reserveEntries (set.count + (firstSplit + endSplit)) world with
        | (.ok, reserved, world) =>
          let begun :=
            if edit.set = none then
              { protectEdit start 0 permissions with
                set := some reserved.self, generation := reserved.generation }
            else edit
          (.ok, reserved, world, { begun with stop := finish }, firstSplit)
        | (status, reserved, world) => (status, reserved, world, edit, firstSplit)
    else (.ok, set, world, { edit with stop := finish }, firstSplit)

/-- The admission walk of `prepare_mprotect`; `remaining` counts the entries
from `index` on, so that 0 is the test `index == set->count`. -/
def mprotectLoop (limits : KernelMemoryLimits) (stop : UInt64) (permissions : BitVec 32) :
    Nat → UInt64 → Nat → Nat → Nat → KernelVmaSet → World → KernelVmaEdit → Prepared
  | 0, start, _, _, _, set, world, edit =>
    if start < stop then (.noMemory, set, world, edit) else (.ok, set, world, edit)
  | remaining + 1, start, index, firstSplit, data, set, world, edit =>
    let vma := set.entries index
    let finish := if vma.stop < stop then vma.stop else stop
    let bytes := (finish - start).toNat
    let counted := dataCounted vma permissions
    let grows := permissions &&& writePermission ≠ 0
    if ¬ start < stop then (.ok, set, world, edit)
    else if start < vma.start ∨ vma.stop ≤ start then (.noMemory, set, world, edit)
    else if permissions &&& ~~~vma.maximumPermissions ≠ 0 then (.access, set, world, edit)
    else if vma.permissions = permissions then
      mprotectLoop limits stop permissions remaining finish (index + 1) firstSplit data set world edit
    else if counted ∧ grows ∧ dataRefused limits set.totalBytes data bytes then
      (.noMemory, set, world, edit)
    else
      let data :=
        if ¬ counted then data
        else if grows then (data + bytes) % 2 ^ 64
        else (data + (2 ^ 64 - bytes)) % 2 ^ 64
      match mprotectAdmit permissions vma start finish firstSplit set world edit with
      | (.ok, set, world, edit, firstSplit) =>
        mprotectLoop limits stop permissions remaining finish (index + 1) firstSplit data set world edit
      | (status, set, world, edit, _) => (status, set, world, edit)

def prepareMprotect (limits : KernelMemoryLimits) (start stop : UInt64) (permissions : BitVec 32)
    (world : World) (edit : KernelVmaEdit) : Prepared :=
  let edit := { edit with set := none }
  if !set.valid || stop ≤ start then (.invalidArgument, set, world, edit)
  else
    mprotectLoop limits stop permissions (set.count - set.firstReaching start) start
      (set.firstReaching start) 0 set.dataBytes set world edit

def editEntry (edit : KernelVmaEdit) (vma : KernelVma) : KernelVma :=
  if edit.kind = .protect then { vma with permissions := edit.permissions }
  else { vma with flags := (vma.flags &&& ~~~edit.flagsMask) ||| edit.flags }

/-- Closing the attachments of the cells from `first` to `last` and moving the
rest of the array down over them. -/
def removeRange (first last : Nat) (world : World) : KernelVmaSet × World :=
  let moved := set.moveEntries first last (set.count - last)
  ({ moved with count := moved.count - (last - first) }, closeLoop set.entries (last - first) first world)

/-- The part of `kernel_vma_set_commit_edit` between the splits and the final
merge. -/
def rewriteRange (edit : KernelVmaEdit) (world : World) : Status × KernelVmaSet × World :=
  let first := set.lowerBound edit.start
  let last := set.lowerBound edit.stop
  if edit.kind = .protect ∨ edit.kind = .flags then
    (.ok, { set with entries := mapRange (editEntry edit) (last - first) first set.entries }, world)
  else
    let (removed, world) := set.removeRange first last world
    if edit.kind = .replace then removed.insertEntry edit.replacement world
    else (.ok, removed, world)

/-- `kernel_vma_set_commit_edit` after its argument checks. -/
def applyEdit (edit : KernelVmaEdit) (world : World) : Except Trap (Status × KernelVmaSet × World) :=
  match set.splitAt edit.start world with
  | (.ok, set, world) =>
    match set.splitAt edit.stop world with
    | (.ok, set, world) =>
      match set.rewriteRange edit world with
      | (.ok, set, world) =>
        let (merged, world) := set.mergeAll world
        match merged.recountBytes with
        | .error fault => .error fault
        | .ok counted => .ok (.ok, counted.nextGeneration, world)
      | (_, set, world) => .ok (.state, set, world)
    | (_, set, world) => .ok (.state, set, world)
  | (_, set, world) => .ok (.state, set, world)

def commitEdit (edit : KernelVmaEdit) (world : World) : Except Trap (Status × KernelVmaSet × World) :=
  if !set.valid || edit.set ≠ some set.self || edit.generation ≠ set.generation ||
      edit.stop ≤ edit.start then
    .ok (.state, set, world)
  else if edit.kind = .replace ∧
      (!edit.replacement.valid || edit.replacement.start ≠ edit.start || edit.replacement.stop ≠ edit.stop) then
    .ok (.state, set, world)
  else set.applyEdit edit world

def prepareRemap (start stop : UInt64) (replacement : KernelVma) (world : World) : Status × KernelVmaSet × World × Option KernelVmaRemap :=
  if !set.valid || !replacement.valid || stop ≤ start ||
      uint64Max.toNat - 2 < set.generation then
    (.invalidArgument, set, world, none)
  else
    let checkStart := if replacement.start = start then stop else replacement.start
    if checkStart < replacement.stop ∧ set.overlaps checkStart replacement.stop ≠ some false then
      (.conflict, set, world, none)
    else if uint32Max - 3 < set.count then (.noMemory, set, world, none)
    else
      match set.reserveEntries (set.count + 3) world with
      | (.ok, reserved, world) =>
        (.ok, reserved, world, some {
          set := reserved.self, generation := reserved.generation, start, stop, replacement })
      | (status, reserved, world) => (status, reserved, world, none)

def commitRemap (edit : KernelVmaRemap) (world : World) : Except Trap (Status × KernelVmaSet × World) :=
  if edit.set ≠ set.self ∨ edit.generation ≠ set.generation then .ok (.state, set, world)
  else
    match set.prepareReplace edit.start edit.stop none world emptyEdit with
    | (.ok, set, world, removal) =>
      match set.commitEdit removal world with
      | .ok (.ok, set, world) =>
        match set.insert edit.replacement world with
        | .ok (.ok, set, world) => .ok (.ok, set, world)
        | _ => .error .trap
      | _ => .error .trap
    | _ => .error .trap

def lookup (address : UInt64) : Status × Option KernelVma :=
  if !set.valid then (.invalidArgument, none)
  else
    let index := set.lowerBound (searchAddress address)
    if index = 0 ∨ (set.entries (index - 1)).stop ≤ address then (.notFound, none)
    else (.ok, some (set.entries (index - 1)))

def trimEnd (start oldEnd newEnd : UInt64) (world : World) : Except Trap (Status × KernelVmaSet × World) :=
  if !set.valid || oldEnd ≤ start || newEnd < start || oldEnd ≤ newEnd then
    .ok (.invalidArgument, set, world)
  else if set.generation = uint64Max.toNat then .ok (.state, set, world)
  else
    let index := set.lowerBound start
    if set.count ≤ index ∨ (set.entries index).start ≠ start ∨ (set.entries index).stop ≠ oldEnd then
      .ok (.notFound, set, world)
    else
      let (trimmed, world) :=
        if newEnd = start then set.eraseEntry index world
        else (set.setEntry index { set.entries index with stop := newEnd }, world)
      match trimmed.recountBytes with
      | .error fault => .error fault
      | .ok counted => .ok (.ok, counted.nextGeneration, world)

end KernelVmaSet
end BoarOS.Vma
