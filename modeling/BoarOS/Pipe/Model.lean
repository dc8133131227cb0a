import BoarOS.Page

namespace BoarOS.Pipe
open Function (update)

/-! # Pipes (`fs/pipe.c`)

The holder of the read lock takes bytes out and the holder of the write lock puts bytes in, both with the metadata
lock dropped while they copy. A step is one section under the metadata lock, one byte copied, one lock taken or
given up, or one call of the page allocator.
-/

variable [PageGeometry]

def inlineSlots : Nat := 16
def maxUnprivilegedBytes : Nat := 1048576
def userPagesSoft : Nat := 16384
def uint64Max : Nat := 2 ^ 64 - 1

structure Buffer where
  page : Option Nat
  offset : Nat
  length : Nat
  canMerge : Bool

def Buffer.empty : Buffer := ⟨none, 0, 0, false⟩

structure Fragment where
  slot : Nat
  offset : Nat
  chunk : Nat
  merging : Bool

structure Ring where
  buffers : Nat → Buffer
  head : Nat
  tail : Nat
  slots : Nat
  size : Nat
  bytes : Nat

namespace Ring

def nextSlot (ring : Ring) (slot : Nat) : Nat := (slot + 1) &&& (ring.size - 1)
def last (ring : Ring) : Nat := (ring.tail + ring.size - 1) &&& (ring.size - 1)

def setBuffer (ring : Ring) (slot : Nat) (buffer : Buffer) : Ring :=
  { ring with buffers := update ring.buffers slot buffer }

def setPage (ring : Ring) (slot : Nat) (page : Option Nat) : Ring :=
  ring.setBuffer slot { ring.buffers slot with page := page }

/-- `pipe_consume`: the page of a buffer that is used up; no result is a trap. -/
def consume (ring : Ring) (mergeSlot : Option Nat) (count : Nat) : Option (Option Nat × Ring) :=
  let buffer := ring.buffers ring.head
  if mergeSlot = some ring.head then none
  else if buffer.length - count = 0 then
    some (buffer.page, { ring.setBuffer ring.head .empty with
      bytes := ring.bytes - count
      head := ring.nextSlot ring.head
      slots := ring.slots - 1 })
  else
    some (none, { ring.setBuffer ring.head { buffer with
        offset := buffer.offset + count, length := buffer.length - count } with
      bytes := ring.bytes - count })

def tailSpace (ring : Ring) (readSlot : Option Nat) : Nat :=
  if ring.slots = 0 then 0
  else if readSlot = some ring.last ∨ (ring.buffers ring.last).canMerge = false then 0
  else pageSize - (ring.buffers ring.last).offset - (ring.buffers ring.last).length

def publish (ring : Ring) (fragment : Fragment) (kernel : Bool) : Ring :=
  let buffer := ring.buffers fragment.slot
  if fragment.merging then
    { ring.setBuffer fragment.slot { buffer with length := buffer.length + fragment.chunk } with
      bytes := ring.bytes + fragment.chunk }
  else
    { ring.setBuffer fragment.slot { buffer with offset := 0, length := fragment.chunk, canMerge := !kernel } with
      tail := ring.nextSlot fragment.slot
      slots := ring.slots + 1
      bytes := ring.bytes + fragment.chunk }

def relocate (ring : Ring) (nr : Nat) : Ring :=
  { ring with
    buffers := fun i => if i < ring.slots then ring.buffers ((ring.head + i) &&& (ring.size - 1)) else .empty
    size := nr
    head := 0
    tail := ring.slots &&& (nr - 1) }

end Ring

inductive Outcome where
  | bytes (count : Nat)
  | again
  | fault
  | brokenPipe
  | noMemory
  | restart
  | notPermitted
  | busy
  | invalid

/-- `pipe_write_source`; `kernel` is a source in kernel memory. -/
structure WriteCall where
  count : Nat
  total : Nat
  kernel : Bool
  nonblock : Bool

def WriteCall.remainder (call : WriteCall) : Nat := if call.kernel then 0 else call.count &&& pageMask

def WriteCall.outcome (call : WriteCall) (reason : Outcome) : Outcome :=
  if call.total ≠ 0 then .bytes call.total else reason

/-- `kernel_pipe_capacity` with command 1031: the argument, what the caller may do, and whether the heap is empty. -/
structure ResizeCall where
  argument : Nat
  resource : Bool
  admin : Bool
  heapEmpty : Bool

def roundUp (size : Nat) : Nat → Nat → Nat
  | 0, rounded => rounded
  | fuel + 1, rounded => if rounded < size then roundUp size fuel (rounded <<< 1) else rounded

namespace ResizeCall

def size (call : ResizeCall) : Nat := call.argument % 2 ^ 32
def rounded (call : ResizeCall) : Nat := roundUp call.size 32 pageSize
def nr (call : ResizeCall) : Nat := call.rounded / pageSize

end ResizeCall

inductive ReadPc where
  | lock (count : Nat) (nonblock : Bool)
  | check (count : Nat) (nonblock : Bool)
  | parking (count : Nat) (nonblock : Bool)
  | parked (count : Nat) (nonblock : Bool)
  | next (requested committed : Nat)
  | waits (requested committed : Nat)
  | yields (requested committed : Nat)
  | copy (requested committed slot offset chunk : Nat) (got : List UInt8)
  | release (requested committed page : Nat)
  | done (outcome : Outcome)

/-- A page that is used up is released before the next buffer is read. -/
def ReadPc.afterBuffer (requested committed : Nat) : Option Nat → ReadPc
  | none => .next requested committed
  | some page => .release requested committed page

inductive WritePc where
  | lock (call : WriteCall)
  | next (call : WriteCall)
  | parking (call : WriteCall)
  | parked (call : WriteCall)
  | page (call : WriteCall) (fragment : Fragment)
  | store (call : WriteCall) (fragment : Fragment) (page : Nat)
  | copy (call : WriteCall) (fragment : Fragment) (put : List UInt8)
  | drop (page : Nat) (outcome : Outcome)
  | done (outcome : Outcome)

/-- A page that holds nothing published is released when the copy fails. -/
def WritePc.afterFault (outcome : Outcome) : Option Nat → WritePc
  | none => .done outcome
  | some unused => .drop unused outcome

inductive ResizePc where
  | check (call : ResizeCall)
  | read (call : ResizeCall)
  | write (call : ResizeCall)
  | both (call : ResizeCall)
  | charged (call : ResizeCall) (pages : Nat)
  | revert (call : ResizeCall) (outcome : Outcome)
  | done (outcome : Outcome)
  | leave (outcome : Outcome)

inductive Pc where
  | idle (outcome : Outcome)
  | reading (pc : ReadPc)
  | writing (pc : WritePc)
  | resizing (pc : ResizePc)

/-- `owned` has the pages that the allocator gave to the pipe. `others` are the pages of the user's other pipes,
`accepted` the bytes that writers published and `returned` those that readers took. -/
structure State where
  ring : Ring
  readers : Nat
  writers : Nat
  readSlot : Option Nat
  mergeSlot : Option Nat
  readLock : Option Nat
  writeLock : Option Nat
  account : Nat
  memory : Nat → Nat → UInt8
  owned : Nat → Bool
  others : Nat
  accepted : List UInt8
  returned : List UInt8
  pcs : Nat → Pc

inductive Action where
  | read (count : Nat) (nonblock : Bool)
  | write (count : Nat) (kernel nonblock : Bool)
  | resize (call : ResizeCall)
  | go
  | wake (signalled : Bool)
  | copyOut
  | copyIn (byte : UInt8)
  | fault
  | allocate (page : Option Nat)
  | endpoints (readers writers : Nat)
  | others (pages : Nat)

/-- `kernel_uid_account_pipe_pages`; no result is a trap. -/
def accountPipePages (account oldPages newPages : Nat) : Option Nat :=
  if account < oldPages ∨ newPages > uint64Max - (account - oldPages) then none
  else some (account - oldPages + newPages)

namespace State

def goto (s : State) (t : Nat) (pc : Pc) : State := { s with pcs := update s.pcs t pc }

def releasePage (s : State) (t page : Nat) (pc : Pc) : Option State :=
  if s.owned page then some { s.goto t pc with owned := update s.owned page false } else none

def idleStep (s : State) (t : Nat) : Action → Option (Option State)
  | .read count nonblock =>
    some (some (s.goto t (if count = 0 then .idle (.bytes 0) else .reading (.lock count nonblock))))
  | .write count kernel nonblock =>
    some (some (s.goto t (if count = 0 then .idle (.bytes 0) else .writing (.lock ⟨count, 0, kernel, nonblock⟩))))
  | .resize call =>
    some (some (s.goto t (if call.size > 2 ^ 31 then .idle .invalid else .resizing (.check call))))
  | _ => none

def readStep (s : State) (t : Nat) : ReadPc → Action → Option (Option State)
  | .lock count nonblock, .go =>
    if s.readLock = none then
      some (some { s.goto t (.reading (.check count nonblock)) with readLock := some t })
    else none
  | .check count nonblock, .go =>
    let requested := if count < s.ring.bytes then count else s.ring.bytes
    if requested ≠ 0 then some (some (s.goto t (.reading (.next requested 0))))
    else if s.writers = 0 then some (some (s.goto t (.reading (.done (.bytes 0)))))
    else if nonblock then some (some (s.goto t (.reading (.done .again))))
    else if s.ring.bytes ≠ 0 ∨ s.writers = 0 then some none
    else some (some (s.goto t (.reading (.parking count nonblock))))
  | .parking count nonblock, .go =>
    some (some { s.goto t (.reading (.parked count nonblock)) with readLock := none })
  | .parked count nonblock, .wake signalled =>
    some (some (s.goto t (if signalled then .idle .restart else .reading (.lock count nonblock))))
  | .next requested committed, .go =>
    let head := s.ring.head
    let buffer := s.ring.buffers head
    if requested ≤ committed then some (some (s.goto t (.reading (.done (.bytes committed)))))
    else if s.mergeSlot = some head then some (some (s.goto t (.reading (.waits requested committed))))
    else if s.ring.slots = 0 ∨ buffer.length = 0 then some none
    else
      let length := requested - committed
      let chunk := if length < buffer.length then length else buffer.length
      some (some { s.goto t (.reading (.copy requested committed head buffer.offset chunk [])) with
        readSlot := some head })
  | .waits requested committed, .go =>
    if s.writeLock = none then
      some (some { s.goto t (.reading (.yields requested committed)) with writeLock := some t })
    else none
  | .yields requested committed, .go =>
    some (some { s.goto t (.reading (.next requested committed)) with writeLock := none })
  | .copy requested committed slot offset chunk got, .copyOut =>
    if got.length < chunk then
      match (s.ring.buffers slot).page with
      | none => some none
      | some page => some (some (s.goto t (.reading (.copy requested committed slot offset chunk
          (got ++ [s.memory page (offset + got.length)])))))
    else none
  | .copy _ committed _ _ _ _, .fault =>
    some (some { s.goto t (.reading (.done (if committed ≠ 0 then .bytes committed else .fault))) with
      readSlot := none })
  | .copy requested committed _ _ chunk got, .go =>
    if got.length = chunk then
      match s.ring.consume s.mergeSlot chunk with
      | none => some none
      | some (page, ring) =>
        some (some { s.goto t (.reading (.afterBuffer requested (committed + chunk) page)) with
          ring := ring, readSlot := none, returned := s.returned ++ got })
    else none
  | .release requested committed page, .go => some (s.releasePage t page (.reading (.next requested committed)))
  | .done outcome, .go => some (some { s.goto t (.idle outcome) with readLock := none })
  | _, _ => none

def fragment (s : State) (call : WriteCall) (merging : Bool) : Fragment :=
  let slot := if merging then s.ring.last else s.ring.tail
  let buffer := s.ring.buffers slot
  let rest := call.count - call.total
  ⟨slot, if merging then buffer.offset + buffer.length else 0,
    if merging then call.remainder else if rest < pageSize then rest else pageSize, merging⟩

def merging (s : State) (call : WriteCall) : Bool :=
  call.total = 0 && call.remainder ≠ 0 && s.ring.slots ≠ 0 && call.remainder ≤ s.ring.tailSpace s.readSlot

def writeStep (s : State) (t : Nat) : WritePc → Action → Option (Option State)
  | .lock call, .go =>
    if s.writeLock = none then some (some { s.goto t (.writing (.next call)) with writeLock := some t }) else none
  | .next call, .go =>
    if call.count ≤ call.total then some (some (s.goto t (.writing (.done (.bytes call.total)))))
    else if s.readers = 0 then some (some (s.goto t (.writing (.done (call.outcome .brokenPipe)))))
    else if s.merging call = false ∧ s.ring.slots = s.ring.size then
      if call.nonblock then some (some (s.goto t (.writing (.done (call.outcome .again)))))
      else if s.ring.slots ≠ s.ring.size ∨ s.readers = 0 then some none
      else some (some (s.goto t (.writing (.parking call))))
    else
      let fragment := s.fragment call (s.merging call)
      some (some { s.goto t (.writing (.page call fragment)) with
        mergeSlot := if fragment.merging then some fragment.slot else s.mergeSlot })
  | .parking call, .go => some (some { s.goto t (.writing (.parked call)) with writeLock := none })
  | .parked call, .wake signalled =>
    some (some (s.goto t (if signalled then .idle (call.outcome .restart) else .writing (.lock call))))
  | .page call fragment, .go =>
    match (s.ring.buffers fragment.slot).page with
    | none => none
    | some _ => some (some (s.goto t (.writing (.copy call fragment []))))
  | .page call fragment, .allocate page =>
    match (s.ring.buffers fragment.slot).page, page with
    | none, none => some (some (s.goto t (.writing (.done (call.outcome .noMemory)))))
    | none, some page =>
      if s.owned page then none
      else some (some { s.goto t (.writing (.store call fragment page)) with
        owned := update s.owned page true })
    | some _, _ => none
  | .store call fragment page, .go =>
    some (some { s.goto t (.writing (.copy call fragment [])) with ring := s.ring.setPage fragment.slot (some page) })
  | .copy call fragment put, .copyIn byte =>
    if put.length < fragment.chunk then
      match (s.ring.buffers fragment.slot).page with
      | none => some none
      | some page => some (some { s.goto t (.writing (.copy call fragment (put ++ [byte]))) with
          memory := update s.memory page (update (s.memory page) (fragment.offset + put.length) byte) })
    else none
  | .copy call fragment _, .fault =>
    if call.kernel then none
    else if fragment.merging then
      some (some { s.goto t (.writing (.done (call.outcome .fault))) with mergeSlot := none })
    else
      some (some { s.goto t (.writing (.afterFault (call.outcome .fault) (s.ring.buffers fragment.slot).page)) with
        mergeSlot := none, ring := s.ring.setPage fragment.slot none })
  | .copy call fragment put, .go =>
    if put.length = fragment.chunk then
      some (some { s.goto t (.writing (.next { call with total := call.total + fragment.chunk })) with
        ring := s.ring.publish fragment call.kernel, mergeSlot := none, accepted := s.accepted ++ put })
    else none
  | .drop page outcome, .go => some (s.releasePage t page (.writing (.done outcome)))
  | .done outcome, .go => some (some { s.goto t (.idle outcome) with writeLock := none })
  | _, _ => none

def resizeStep (s : State) (t : Nat) : ResizePc → Action → Option (Option State)
  | .check call, .go =>
    some (some (s.goto t (if call.rounded > maxUnprivilegedBytes ∧ call.resource = false ∧ call.nr > s.ring.size
      then .idle .notPermitted else .resizing (.read call))))
  | .read call, .go =>
    if s.readLock = none then some (some { s.goto t (.resizing (.write call)) with readLock := some t }) else none
  | .write call, .go =>
    if s.writeLock = none then some (some { s.goto t (.resizing (.both call)) with writeLock := some t }) else none
  | .both call, .go =>
    if call.nr > s.ring.size ∧ call.rounded > maxUnprivilegedBytes ∧ call.resource = false then
      some (some (s.goto t (.resizing (.done .notPermitted))))
    else some ((accountPipePages s.account s.ring.size call.nr).map fun pages =>
      { s.goto t (.resizing (.charged call pages)) with account := pages })
  | .charged call pages, .go =>
    if call.nr > s.ring.size ∧ pages > userPagesSoft ∧ call.resource = false ∧ call.admin = false then
      some (some (s.goto t (.resizing (.revert call .notPermitted))))
    else if call.nr > inlineSlots ∧ call.heapEmpty then some (some (s.goto t (.resizing (.revert call .noMemory))))
    else if call.nr < s.ring.slots then some (some (s.goto t (.resizing (.revert call .busy))))
    else if s.readSlot ≠ none ∨ s.mergeSlot ≠ none then some none
    else some (some { s.goto t (.resizing (.done (.bytes (call.nr * pageSize)))) with ring := s.ring.relocate call.nr })
  | .revert call outcome, .go =>
    some ((accountPipePages s.account call.nr s.ring.size).map fun pages =>
      { s.goto t (.resizing (.done outcome)) with account := pages })
  | .done outcome, .go => some (some { s.goto t (.resizing (.leave outcome)) with writeLock := none })
  | .leave outcome, .go => some (some { s.goto t (.idle outcome) with readLock := none })
  | _, _ => none

/-- A step of thread `t`: no result is a step that it cannot take, and no state a trap. -/
def step (s : State) (t : Nat) : Action → Option (Option State)
  | .endpoints readers writers => some (some { s with readers := readers, writers := writers })
  | .others pages =>
    -- The rings of other pipes have at most `2 ^ 19` slots each, far from filling the count.
    if pages + 2 ^ 32 ≤ uint64Max then some (some { s with account := s.account - s.others + pages, others := pages })
    else none
  | action => match s.pcs t with
    | .idle _ => s.idleStep t action
    | .reading pc => s.readStep t pc action
    | .writing pc => s.writeStep t pc action
    | .resizing pc => s.resizeStep t pc action

/-- `kernel_pipe_create` makes a ring of 16 slots, or of 2 if the user has too many pages. -/
def initial (few : Bool) (others : Nat) (memory : Nat → Nat → UInt8) : State :=
  let size := if few then 2 else inlineSlots
  { ring := ⟨fun _ => .empty, 0, 0, 0, size, 0⟩, readers := 0, writers := 0, readSlot := none, mergeSlot := none
    readLock := none, writeLock := none, account := others + size, memory := memory, owned := fun _ => false
    others := others, accepted := [], returned := [], pcs := fun _ => .idle (.bytes 0) }

inductive Reachable : State → Prop where
  | initial {few : Bool} {others : Nat} {memory : Nat → Nat → UInt8} :
      others + 2 ^ 32 ≤ uint64Max → Reachable (initial few others memory)
  | step {s after : State} {t : Nat} {action : Action} : Reachable s → s.step t action = some (some after) →
      Reachable after

end State
end BoarOS.Pipe
