import Mathlib.Algebra.Ring.Nat
import Mathlib.Data.List.Basic

namespace BoarOS.PageWriters
open Function (update)

/-! # Writers, snapshots and resizes of one cached page (`fs/page_cache.c`, `mm/mm.c`)

The writers of a page share one atomic word with its closers: two closed bits and a count of writer borrows. A
writeback or a resize closes the page, takes the write permission from every mapping of it and waits until the
borrows are gone. A step is one operation on the word, one section under the metadata mutex of the cache or one
change of a leaf under the gate of its address space. -/

def cacheWritesClosed : Nat := 2 ^ 63
def cacheEntryClosed : Nat := 2 ^ 62
def uint32Max : Nat := 2 ^ 32 - 1
def uint64Max : Nat := 2 ^ 64 - 1
def cacheWritesMask : Nat := cacheWritesClosed ||| cacheEntryClosed ||| uint32Max

/-- A step that cannot be taken now, or a `__builtin_trap`. -/
inductive Stop where
  | blocked
  | trap
deriving Repr, DecidableEq

/-- `state & ~CACHE_WRITES_MASK` -/
def strayBits (word : Nat) : Bool := word &&& (uint64Max - cacheWritesMask) != 0

/-- `state & CACHE_WRITES_CLOSED` -/
def writesClosed (word : Nat) : Bool := word.testBit 63

/-- `state & CACHE_ENTRY_CLOSED` -/
def entryClosed (word : Nat) : Bool := word.testBit 62

/-- `state & (CACHE_WRITES_CLOSED | CACHE_ENTRY_CLOSED)` -/
def anyClosed (word : Nat) : Bool := writesClosed word || entryClosed word

/-- `(uint32_t)state` -/
def writerCount (word : Nat) : Nat := word % 2 ^ 32
def fetchOr (word bits : Nat) : Nat := word ||| bits
def fetchAndNot (word bits : Nat) : Nat := word &&& (uint64Max - bits)

/-- `writer_begin` on the word: `none` is a refusal. -/
def wordBegin (word : Nat) : Except Stop (Option Nat) :=
  if strayBits word || writerCount word == uint32Max then throw .trap
  else if anyClosed word then pure none
  else pure (some (word + 1))

def wordEnd (word : Nat) : Except Stop (Nat × Bool) :=
  if strayBits word || writerCount word == 0 then throw .trap
  else pure (word - 1, anyClosed word && writerCount word == 1)

inductive Leaf where
  | absent
  | readOnly
  | writable
deriving Repr, DecidableEq

/-- A registered mapping of the page; `retiredNext` outlives its place in the list. -/
structure Alias where
  space : Nat := 0
  leaf : Leaf := .absent
  retiredNext : Option Nat := none
deriving Repr, DecidableEq

/-- A `kernel_page_cache_write_borrow`: of a buffered write or a user pin, or of a fault. -/
inductive Borrow where
  | buffered (task : Nat)
  | fault (task : Nat)
deriving Repr, DecidableEq

/-- Who has closed the page, with the state of the task that decides how it waits. -/
inductive Closer where
  | writeback (background pins writing : Bool)
  | resize (pins : Bool)
deriving Repr, DecidableEq

/-- Whether a busy gate turns the closer away instead of letting it wait. -/
def Closer.tries : Closer → Bool
  | .writeback background pins _ => background || pins
  | .resize pins => pins

/-- Where `rearm_aliases` stands: about to re-arm an alias, or about to take the next. -/
inductive Walk where
  | visit (mapping : Nat)
  | advance (mapping : Nat)
deriving Repr, DecidableEq

inductive Phase where
  | idle
  | writable
  | readable
  | faulting (mapping : Nat)
  | selecting (background pins : Bool)
  | selected (background pins : Bool)
  | abandoning
  | rearming (closer : Closer) (walk : Walk)
  | draining (closer : Closer)
  | undoing (closer : Closer)
  | capturing (version : List (Nat × UInt8))
  | captured (version : List (Nat × UInt8))
  | submitted (version : List (Nat × UInt8))
  | resizing (pins : Bool)
  | resized
deriving Repr, DecidableEq

/-- One page, its mappings and the tasks that use it. `loadNotice` is a finished load
whose wake is still to come; `live` says which address spaces can still run. -/
structure System where
  writes : Nat := 0
  retired : Bool := false
  loading : Bool := true
  loadNotice : Bool := false
  writeback : Bool := false
  content : Nat → UInt8 := fun _ => 0
  borrows : List Borrow := []
  aliases : List Nat := []
  aliasOf : Nat → Alias := fun _ => {}
  nextAlias : Nat := 0
  gate : Nat → Option Nat := fun _ => none
  live : Nat → Bool := fun _ => true
  phase : Nat → Phase := fun _ => .idle
  parked : Nat → Bool := fun _ => false

variable (s : System) (task : Nat)

namespace System

def become (phase : Phase) : System :=
  { s with phase := update s.phase task phase }

/-- `kernel_wait_prepare` on the queue of the page, and the park that follows. -/
def park : System :=
  { s with parked := update s.parked task true }

def wake : System := { s with parked := fun _ => false }

def setLeaf (mapping : Nat) (leaf : Leaf) : System :=
  { s with aliasOf := update s.aliasOf mapping { s.aliasOf mapping with leaf := leaf } }

def ownBorrow : Bool :=
  s.borrows.any fun borrow => borrow == .buffered task || borrow == .fault task

def writerBegin (borrow : Borrow) : Except Stop (Option System) := do
  match ← wordBegin s.writes with
  | none => pure none
  | some word => pure (some { s with writes := word, borrows := borrow :: s.borrows })

def writerEnd (borrow : Borrow) : Except Stop System := do
  if borrow ∉ s.borrows then throw .blocked
  let (word, notify) ← wordEnd s.writes
  let ended := { s with writes := word, borrows := s.borrows.erase borrow }
  pure (if notify then ended.wake else ended)

def waitWritable : System :=
  if s.retired || !anyClosed s.writes then s.become task .idle else s.park task

def waitReadable : System :=
  if !s.loading && !entryClosed s.writes then s.become task .idle else s.park task

/-- `alias_write_begin` of `cached_write_fault`. A refused fault drops its gate and,
without pins, waits for the page to become writable. -/
def faultBegin (mapping : Nat) (pins : Bool) : Except Stop System := do
  if mapping ∉ s.aliases || s.gate (s.aliasOf mapping).space != some task || !s.live (s.aliasOf mapping).space then
    throw .blocked
  match ← s.writerBegin (.fault task) with
  | some admitted => pure (admitted.become task (.faulting mapping))
  | none =>
    let released := { s with gate := update s.gate (s.aliasOf mapping).space none }
    pure (released.become task (if pins then .idle else .writable))

end System

def rearmed : Closer → Phase
  | .writeback _ _ false => .capturing []
  | closer => .draining closer

/-- `rearm_aliases` with the alias it takes next. -/
def walkFrom (closer : Closer) : Option Nat → Phase
  | some mapping => .rearming closer (.visit mapping)
  | none => rearmed closer

namespace System

/-- The link that a walk follows: the list while the alias is in it, else the link it retired with. -/
def nextAliasOf (mapping : Nat) : Option Nat :=
  if mapping ∈ s.aliases then s.aliases[s.aliases.idxOf mapping + 1]? else (s.aliasOf mapping).retiredNext

/-- The section of the first loop of `prepare_writeback`. -/
def writebackSelect (background pins clean allowed : Bool) : System :=
  if s.retired || clean then s.become task .idle
  else if s.loading || !allowed then s.become task .idle
  else if !s.writeback && !writesClosed s.writes then
    { s with writeback := true }.become task (.selected background pins)
  else if background then s.become task .idle
  else s.park task

/-- The section of `prepare_writeback` that closes the page. -/
def writebackClose (background pins : Bool) : Except Stop System :=
  if background then
    if s.writes == 0 then
      pure ({ s with writes := cacheWritesClosed }.become task (walkFrom (.writeback background pins false) s.aliases.head?))
    else pure (s.become task .abandoning)
  else if writesClosed s.writes || strayBits s.writes then throw .trap
  else
    pure ({ s with writes := fetchOr s.writes cacheWritesClosed }.become task
      (walkFrom (.writeback background pins (writerCount s.writes != 0)) s.aliases.head?))

/-- The section of the first loop of `kernel_page_cache_resize_prepare`. -/
def resizeClose (pins : Bool) : System :=
  if !s.writeback && !s.loading && !anyClosed s.writes then
    { s with writes := fetchOr s.writes (cacheWritesClosed ||| cacheEntryClosed) }.become task (walkFrom (.resize pins) s.aliases.head?)
  else if pins then s.become task .idle
  else s.park task

/-- `writeback_unprepare`, for a writeback that has closed the page or not. -/
def writebackUnprepare (closed : Bool) : Except Stop System :=
  if closed && !writesClosed s.writes then throw .trap
  else
    let writes := if closed then fetchAndNot s.writes cacheWritesClosed else s.writes
    pure ({ s with writes := writes, writeback := false }.wake.become task .idle)

def resizeUndo : System :=
  { s with writes := fetchAndNot s.writes (cacheWritesClosed ||| cacheEntryClosed) }.wake.become task .idle

/-- The section of the loops that wait for the last writer. -/
def drain : Closer → System
  | .writeback _ _ _ =>
    if writerCount s.writes == 0 then s.become task (.capturing []) else s.park task
  | .resize pins =>
    if writerCount s.writes == 0 then s.become task .resized
    else if pins then s.resizeUndo task
    else s.park task

/-- `rearm_shared_file_alias`: the leaf of a live space loses its write permission. -/
def rearm (mapping : Nat) : System :=
  if mapping ∈ s.aliases && s.live (s.aliasOf mapping).space && (s.aliasOf mapping).leaf == .writable then
    s.setLeaf mapping .readOnly
  else s

/-- The second section of `capture_writeback`; its wake is a step of its own. -/
def writebackReopen (version : List (Nat × UInt8)) : Except Stop System :=
  if s.writes != cacheWritesClosed then throw .trap
  else pure ({ s with writes := fetchAndNot s.writes cacheWritesClosed }.become task (.captured version))

def writebackComplete : Except Stop System :=
  if !s.writeback then throw .trap
  else pure ({ s with writeback := false }.wake.become task .idle)

def resizeFinish : Except Stop System :=
  if s.writes != cacheWritesClosed ||| cacheEntryClosed then throw .trap
  else pure ({ s with writes := 0 }.wake.become task .idle)

/-- `link_alias` of a mapping whose leaf is published without write permission. -/
def attach (space : Nat) : System :=
  { s with
    aliases := s.nextAlias :: s.aliases
    aliasOf := update s.aliasOf s.nextAlias { space := space, leaf := .readOnly }
    nextAlias := s.nextAlias + 1 }

def detach (mapping : Nat) : System :=
  { s with
    aliases := s.aliases.erase mapping
    aliasOf := update s.aliasOf mapping { s.aliasOf mapping with retiredNext := s.nextAliasOf mapping } }

end System

inductive Action where
  | writerBegin
  | writerEnd
  | write (offset : Nat) (value : UInt8)
  | waitWritableEnter
  | waitWritable
  | waitReadableEnter
  | waitReadable
  | gateLock (space : Nat)
  | gateUnlock (space : Nat)
  | faultBegin (mapping : Nat) (pins : Bool)
  | faultPublish
  | faultEnd
  | store (mapping offset : Nat) (value : UInt8)
  | attach (space : Nat)
  | clone (source space : Nat)
  | protect (mapping : Nat)
  | unmap (mapping : Nat)
  | detach (mapping : Nat)
  | teardown (space : Nat)
  | writebackEnter (background pins : Bool)
  | writebackSelect (clean allowed : Bool)
  | versionFails
  | writebackClose
  | rearm
  | rearmBusy
  | advance
  | drain
  | undo
  | copy (offset : Nat)
  | reopen
  | notify
  | complete
  | resizeEnter (pins : Bool)
  | resizeClose
  | resizeWrite (offset : Nat) (value : UInt8)
  | resizeFinish
  | loadFill (offset : Nat) (value : UInt8)
  | loadFinish
  | loadNotify
  | retire
deriving Repr, DecidableEq

def System.put (offset : Nat) (value : UInt8) : System :=
  { s with content := update s.content offset value }

/-- The task runs unless it is parked; an action that does not fit its phase is blocked. -/
def System.step (action : Action) : Except Stop System :=
  if s.parked task then throw .blocked else
  match action, s.phase task with
  | .writerBegin, .idle => do
      match ← s.writerBegin (.buffered task) with
      | some admitted => pure admitted
      | none => pure s
  | .writerEnd, .idle => s.writerEnd (.buffered task)
  | .write offset value, .idle =>
    if .buffered task ∈ s.borrows then pure (s.put offset value) else throw .blocked
  | .waitWritableEnter, .idle => pure (s.become task .writable)
  | .waitWritable, .writable => pure (s.waitWritable task)
  | .waitReadableEnter, .idle => pure (s.become task .readable)
  | .waitReadable, .readable => pure (s.waitReadable task)
  | .gateLock space, .idle =>
    if s.gate space == none then
      pure { s with gate := update s.gate space (some task) }
    else throw .blocked
  | .gateUnlock space, .idle =>
    if s.gate space == some task then
      pure { s with gate := update s.gate space none }
    else throw .blocked
  | .faultBegin mapping pins, .idle => s.faultBegin task mapping pins
  | .faultPublish, .faulting mapping => pure (s.setLeaf mapping .writable)
  | .faultEnd, .faulting _ => do
      let ended ← s.writerEnd (.fault task)
      pure (ended.become task .idle)
  | .store mapping offset value, _ =>
    if s.live (s.aliasOf mapping).space && (s.aliasOf mapping).leaf == .writable then pure (s.put offset value)
    else throw .blocked
  | .attach space, .idle =>
    if s.gate space == some task && !s.retired then pure (s.attach space) else throw .blocked
  | .clone source space, .idle =>
    if source ∈ s.aliases && s.gate (s.aliasOf source).space == some task then pure (s.attach space)
    else throw .blocked
  | .protect mapping, .idle =>
    if mapping ∈ s.aliases && s.gate (s.aliasOf mapping).space == some task &&
        (s.aliasOf mapping).leaf != .absent then
      pure (s.setLeaf mapping .readOnly)
    else throw .blocked
  | .unmap mapping, .idle =>
    if mapping ∈ s.aliases && s.gate (s.aliasOf mapping).space == some task then
      pure (s.setLeaf mapping .absent)
    else throw .blocked
  | .detach mapping, .idle =>
    if mapping ∈ s.aliases && (!s.live (s.aliasOf mapping).space ||
        (s.gate (s.aliasOf mapping).space == some task && (s.aliasOf mapping).leaf == .absent)) then
      pure (s.detach mapping)
    else throw .blocked
  | .teardown space, .idle =>
    if s.gate space == some task then pure { s with live := update s.live space false }
    else throw .blocked
  | .writebackEnter background pins, .idle =>
    if s.ownBorrow task then pure s else pure (s.become task (.selecting background pins))
  | .writebackSelect clean allowed, .selecting background pins =>
    pure (s.writebackSelect task background pins clean allowed)
  | .versionFails, .selected _ _ => pure (s.become task .abandoning)
  | .writebackClose, .selected background pins => s.writebackClose task background pins
  | .rearm, .rearming closer (.visit mapping) =>
    if mapping ∉ s.aliases || s.gate (s.aliasOf mapping).space == none ||
        s.gate (s.aliasOf mapping).space == some task then
      pure ((s.rearm mapping).become task (.rearming closer (.advance mapping)))
    else throw .blocked
  | .rearmBusy, .rearming closer (.visit mapping) =>
    if closer.tries && s.gate (s.aliasOf mapping).space != some task then
      pure (s.become task (.undoing closer))
    else throw .blocked
  | .advance, .rearming closer (.advance mapping) =>
    pure (s.become task (walkFrom closer (s.nextAliasOf mapping)))
  | .drain, .draining closer => pure (s.drain task closer)
  | .undo, .undoing (.writeback _ _ _) => s.writebackUnprepare task true
  | .undo, .undoing (.resize _) => pure (s.resizeUndo task)
  | .undo, .abandoning => s.writebackUnprepare task false
  | .copy offset, .capturing version =>
    pure (s.become task (.capturing ((offset, s.content offset) :: version)))
  | .reopen, .capturing version => s.writebackReopen task version
  | .notify, .captured version => pure (s.wake.become task (.submitted version))
  | .complete, .submitted _ => s.writebackComplete task
  | .resizeEnter pins, .idle =>
    if s.ownBorrow task then pure s else pure (s.become task (.resizing pins))
  | .resizeClose, .resizing pins => pure (s.resizeClose task pins)
  | .resizeWrite offset value, .resized => pure (s.put offset value)
  | .resizeFinish, .resized => s.resizeFinish task
  | .loadFill offset value, _ => if s.loading then pure (s.put offset value) else throw .blocked
  | .loadFinish, _ =>
    if s.loading then pure { s with loading := false, loadNotice := true } else throw .blocked
  | .loadNotify, _ => if s.loadNotice then pure { s.wake with loadNotice := false } else throw .blocked
  | .retire, .idle =>
    if s.aliases.isEmpty && !s.loading then pure { s with retired := true }.wake else throw .blocked
  | _, _ => throw .blocked

/-- The states of the runs from a page that has just been published, still loading. -/
inductive Reachable : System → Prop where
  | initial (content : Nat → UInt8) : Reachable { content := content }
  | step {s after : System} {task : Nat} {action : Action} :
      Reachable s → s.step task action = .ok after → Reachable after

end BoarOS.PageWriters
