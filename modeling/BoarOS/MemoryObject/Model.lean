import BoarOS.Page
import BoarOS.Data.ChainTable

namespace BoarOS.MemoryObject
open Function (update)

/-!
# Memory objects

`src/mm/memory_object.c`: pages of shared anonymous memory and of memory files,
found by their index. `none` is a trap. Object addresses are the places `ι`;
the frames they use, the budgets and the allocator's counter are one `Machine`.
-/

def uint32Max : Nat := 2 ^ 32 - 1
def uint64Max : Nat := 2 ^ 64 - 1
def sharedAnonInitialBuckets : Nat := 16

inductive Publication where
  | direct
  | preparing
  | adopted
deriving Repr, DecidableEq

/-- The last three fields are bookkeeping: whether a direct `get` created the
page, whether anyone prepared it since, and whether some client obtained it by an
accepted preparation, a `find` or a `get` that did not create it. -/
structure Page where
  index : Nat
  physicalAddress : Nat
  preparations : Nat
  publication : Publication
  byGet : Bool
  prepared : Bool
  obtained : Bool
deriving Repr, DecidableEq

/-- The locals of a `get_page` that found nothing and holds the object's lock. -/
structure Missing where
  index : Nat
  preparing : Bool
deriving Repr, DecidableEq

structure Object where
  budget : Option Nat := none
  buckets : List (List Page) := []
  pageCount : Nat := 0
  references : Nat := 0
  busy : Option Missing := none
deriving Repr, DecidableEq

def Object.pages (object : Object) : List Page := object.buckets.flatten

inductive Status where
  | ok
  | noMemory
  | notFound
  | noSpace
  | state
deriving Repr, DecidableEq

inductive HeapStatus where
  | ok
  | empty
  | other
deriving Repr, DecidableEq

inductive FrameStatus where
  | ok (address : Nat)
  | empty
  | other
deriving Repr, DecidableEq

structure Machine where
  references : Nat → Nat
  contents : Nat → Nat → UInt8
  sharedAnonPages : Nat
  limit : Nat → Nat
  used : Nat → Nat

structure Reply where
  status : Status
  address : Nat := 0
  created : Bool := false
deriving Repr, DecidableEq

def physicalPageAcquire (m : Machine) (address : Nat) : Option Machine :=
  if m.references address = 0 ∨ m.references address = uint32Max then none
  else some { m with references := update m.references address (m.references address + 1) }

def physicalPageRelease (m : Machine) (address : Nat) : Option Machine :=
  if m.references address = 0 then none
  else some { m with references := update m.references address (m.references address - 1) }

def Machine.clear (m : Machine) (address start : Nat) : Machine :=
  { m with
    contents := update m.contents address fun offset =>
      if start ≤ offset then 0 else m.contents address offset }

/-- `some none` is a refusal. -/
def charge (value limit : Nat) : Option (Option Nat) :=
  if value = uint64Max then none
  else if limit ≠ 0 ∧ limit ≤ value then some none
  else some (some (value + 1))

def uncharge (value : Nat) : Option Nat := if value = 0 then none else some (value - 1)

def unaccountPage (m : Machine) (budget : Option Nat) : Option Machine :=
  match uncharge m.sharedAnonPages with
  | none => none
  | some shared =>
    let m := { m with sharedAnonPages := shared }
    match budget with
    | none => some m
    | some account =>
      (uncharge (m.used account)).map fun used =>
        { m with used := update m.used account used }

@[irreducible] def bucketFor (index bucketCount : Nat) : Nat :=
  let index := index ^^^ (index >>> 33)
  let index := 0xff51afd7ed558ccd * index % 2 ^ 64
  let index := index ^^^ (index >>> 33)
  index &&& (bucketCount - 1)

def Object.place (object : Object) (index : Nat) : Nat := bucketFor index object.buckets.length

def Object.find (object : Object) (index : Nat) : Option Page :=
  ChainTable.find object.buckets (object.place index) fun page => page.index == index

def Object.edit (object : Object) (index : Nat) (edit : Page → Option Page) : Object :=
  { object with
    buckets := object.buckets.modify (object.place index) (ChainTable.onFirst (fun page => page.index == index) edit) }

def growBuckets (object : Object) (heap : HeapStatus) : Status × Object :=
  if object.pageCount / 2 < object.buckets.length then (.ok, object)
  else if object.buckets.length > uint64Max / 2 / 8 then (.noMemory, object)
  else
    match heap with
    | .empty => (.noMemory, object)
    | .other => (.state, object)
    | .ok =>
      let capacity := object.buckets.length * 2
      (.ok, { object with
        buckets := ChainTable.rehash object.buckets (fun page => bucketFor page.index capacity) capacity })

def kernelMemoryObjectCreate (budget : Option Nat) : Object :=
  { budget := budget, buckets := List.replicate sharedAnonInitialBuckets [], references := 1 }

def kernelMemoryObjectAcquire (object : Object) : Status × Object :=
  if object.references = 0 ∨ object.references = uint32Max then (.state, object)
  else (.ok, { object with references := object.references + 1 })

def Page.join (page : Page) (preparing : Bool) : Page :=
  if preparing then
    { page with
      preparations := page.preparations + 1
      publication := if page.publication = .direct then .adopted else page.publication
      prepared := true }
  else
    { page with
      publication := if page.publication = .preparing then .adopted else page.publication
      obtained := true }

def budgetFull (m : Machine) (budget : Option Nat) : Bool :=
  match budget with
  | none => false
  | some account => m.limit account != 0 && m.limit account ≤ m.used account

/-- `get_page` until it has to allocate. Without a reply the lock stays held. -/
def getPageLookup (m : Machine) (object : Object) (index : Nat) (preparing : Bool) (heap : HeapStatus) :
    Option (Option Reply × Machine × Object) :=
  match object.find index with
  | some page =>
    match physicalPageAcquire m page.physicalAddress with
    | none => none
    | some m =>
      if preparing = true ∧ page.preparations = uint32Max then none
      else
        some (some { status := .ok, address := page.physicalAddress }, m, object.edit index fun page => some (page.join preparing))
  | none =>
    if budgetFull m object.budget then some (some { status := .noSpace }, m, object)
    else
      let (status, object) := growBuckets object heap
      if status ≠ .ok then some (some { status := status }, m, object)
      else some (none, m, { object with busy := some ⟨index, preparing⟩ })

def newPage (missing : Missing) (address : Nat) : Page where
  index := missing.index
  physicalAddress := address
  preparations := if missing.preparing then 1 else 0
  publication := if missing.preparing then .preparing else .direct
  byGet := !missing.preparing
  prepared := missing.preparing
  obtained := false

def Object.insert (object : Object) (page : Page) : Object :=
  { object with
    buckets := ChainTable.insert object.buckets (object.place page.index) page
    pageCount := object.pageCount + 1 }

/-- The charge of a new page; `some none` when another object took the last one. -/
def chargeBudget (m : Machine) (budget : Option Nat) : Option (Option Machine) :=
  match budget with
  | none => some (some m)
  | some account =>
    match charge (m.used account) (m.limit account) with
    | none => none
    | some none => some none
    | some (some used) => some (some { m with used := update m.used account used })

/-- The rest of `get_page`, with the answers of both allocators. -/
def getPagePublish (m : Machine) (object : Object) (missing : Missing) (heap : HeapStatus)
    (frame : FrameStatus) : Option (Reply × Machine × Object) :=
  let object := { object with busy := none }
  match heap with
  | .empty => some ({ status := .noMemory }, m, object)
  | .other => some ({ status := .state }, m, object)
  | .ok =>
    match frame with
    | .empty => some ({ status := .noMemory }, m, object)
    | .other => some ({ status := .state }, m, object)
    | .ok address =>
      let m := { m with references := update m.references address 1 }
      let m := m.clear address 0
      match physicalPageAcquire m address with
      | none => none
      | some m =>
        match chargeBudget m object.budget with
        | none => none
        | some none =>
          match physicalPageRelease m address with
          | none => none
          | some m => (physicalPageRelease m address).map fun m => ({ status := .noSpace }, m, object)
        | some (some m) =>
          match charge m.sharedAnonPages 0 with
          | none => none
          | some none => none
          | some (some shared) =>
            some ({ status := .ok, address := address, created := true },
              { m with sharedAnonPages := shared }, object.insert (newPage missing address))

/-- Unlinks a page, gives back its charge and the object's reference. -/
def removePage (m : Machine) (object : Object) (index address : Nat) : Option (Machine × Object) :=
  let object := { object.edit index fun _ => none with pageCount := object.pageCount - 1 }
  match unaccountPage m object.budget with
  | none => none
  | some m => (physicalPageRelease m address).map fun m => (m, object)

def Page.finish (page : Page) (accepted : Bool) : Page :=
  { page with
    publication := if accepted then .adopted else page.publication
    obtained := accepted || page.obtained
    preparations := page.preparations - 1 }

def kernelMemoryObjectFinishPage (m : Machine) (object : Object) (index address : Nat) (accepted : Bool) : Option (Machine × Object) :=
  let known := (object.find index).filter fun page => page.physicalAddress == address
  match known with
  | none => if accepted then none else (physicalPageRelease m address).map fun m => (m, object)
  | some page =>
    if page.preparations = 0 ∨ page.publication = .direct then none
    else
      match (if accepted then some m else physicalPageRelease m address) with
      | none => none
      | some m =>
        let page := page.finish accepted
        if page.preparations ≠ 0 ∨ page.publication = .adopted then
          some (m, object.edit index fun page => some (page.finish accepted))
        else if m.references address ≠ 1 then none
        else removePage m object index address

def kernelMemoryObjectDiscardNewPage (m : Machine) (object : Object) (index address : Nat) : Option (Machine × Object) :=
  match object.find index with
  | none => some (m, object)
  | some page =>
    if page.physicalAddress ≠ address ∨ page.preparations ≠ 0 ∨ page.publication = .adopted then
      some (m, object)
    else if m.references address = 0 then none
    else if m.references address ≠ 1 then some (m, object)
    else removePage m object index address

def kernelMemoryObjectFindPage (m : Machine) (object : Object) (index : Nat) : Option (Reply × Machine × Object) :=
  match object.find index with
  | none => some ({ status := .notFound }, m, object)
  | some page =>
    (physicalPageAcquire m page.physicalAddress).map fun m =>
      ({ status := .ok, address := page.physicalAddress }, m, object.edit index fun page => some (page.join false))

def releaseChain (m : Machine) (budget : Option Nat) : List Page → Option Machine
  | [] => some m
  | page :: rest =>
    if page.preparations ≠ 0 then none
    else
      match physicalPageRelease m page.physicalAddress with
      | none => none
      | some m =>
        match unaccountPage m budget with
        | none => none
        | some m => releaseChain m budget rest

def releaseBuckets (m : Machine) (budget : Option Nat) : List (List Page) → Option Machine
  | [] => some m
  | chain :: rest =>
    match releaseChain m budget chain with
    | none => none
    | some m => releaseBuckets m budget rest

def kernelMemoryObjectRelease (m : Machine) (object : Object) : Option (Machine × Object) :=
  if object.references = 0 then none
  else if object.references ≠ 1 then some (m, { object with references := object.references - 1 })
  else (releaseBuckets m object.budget object.buckets).map fun m => (m, {})

section
variable [PageGeometry]

def Page.beyond (page : Page) (size : Nat) : Bool :=
  size / pageSize < page.index || (page.index == size / pageSize && size % pageSize == 0)

/-- One chain of `kernel_memory_object_truncate`: the machine, what stays of the
chain and how many pages went. -/
def truncateChain (m : Machine) (budget : Option Nat) (size : Nat) : List Page → Option (Machine × List Page × Nat)
  | [] => some (m, [], 0)
  | page :: rest =>
    if page.beyond size then
      match unaccountPage m budget with
      | none => none
      | some m =>
        match physicalPageRelease m page.physicalAddress with
        | none => none
        | some m =>
          (truncateChain m budget size rest).map fun (m, kept, removed) => (m, kept, removed + 1)
    else
      let m :=
        if size % pageSize ≠ 0 ∧ page.index = size / pageSize then
          m.clear page.physicalAddress (size % pageSize)
        else m
      (truncateChain m budget size rest).map fun (m, kept, removed) => (m, page :: kept, removed)

def truncateBuckets (m : Machine) (budget : Option Nat) (size : Nat) : List (List Page) → Option (Machine × List (List Page) × Nat)
  | [] => some (m, [], 0)
  | chain :: rest =>
    match truncateChain m budget size chain with
    | none => none
    | some (m, kept, removed) =>
      (truncateBuckets m budget size rest).map fun (m, buckets, more) =>
        (m, kept :: buckets, removed + more)

def kernelMemoryObjectTruncate (m : Machine) (object : Object) (size : Nat) : Option (Machine × Object) :=
  (truncateBuckets m object.budget size object.buckets).map fun (m, buckets, removed) =>
    (m, { object with buckets := buckets, pageCount := object.pageCount - removed })

end

structure Token (ι : Type) where
  object : ι
  index : Nat
  address : Nat
deriving Repr, DecidableEq

/-- The objects and their clients: preparations under way and the frame
references that clients hold, one entry each. -/
structure System (ι : Type) where
  machine : Machine
  objects : ι → Object
  pending : List (Token ι)
  held : List Nat

variable {ι : Type} [DecidableEq ι]

def System.initial (limit : Nat → Nat) (contents : Nat → Nat → UInt8) : System ι where
  machine :=
    { references := fun _ => 0, contents := contents, sharedAnonPages := 0, limit := limit,
      used := fun _ => 0 }
  objects _ := {}
  pending := []
  held := []

/-- What runs under an object's lock, or without it in the case of references,
and what clients do with frames they hold. -/
inductive Step (ι : Type) where
  | create (object : ι) (budget : Option Nat)
  | acquire (object : ι)
  | release (object : ι)
  | getLookup (object : ι) (index : Nat) (preparing : Bool) (heap : HeapStatus)
  | getPublish (object : ι) (heap : HeapStatus) (frame : FrameStatus)
  | finish (token : Token ι) (accepted : Bool)
  | discard (object : ι) (index address : Nat)
  | find (object : ι) (index : Nat)
  | truncate (object : ι) (size : Nat)
  | share (address : Nat)
  | drop (address : Nat)
  | write (address offset : Nat) (value : UInt8)
deriving Repr, DecidableEq

def System.put (s : System ι) (object : ι) (m : Machine) (value : Object) : System ι :=
  { s with machine := m, objects := update s.objects object value }

def System.handOut (s : System ι) (object : ι) (index : Nat) (preparing : Bool) (reply : Reply) : System ι :=
  if reply.status ≠ .ok then s
  else if preparing then { s with pending := ⟨object, index, reply.address⟩ :: s.pending }
  else { s with held := reply.address :: s.held }

variable [PageGeometry]

def System.step (s : System ι) : Step ι → Option (Reply × System ι)
  | .create object budget =>
    some ({ status := .ok }, s.put object s.machine (kernelMemoryObjectCreate budget))
  | .acquire object =>
    let (status, value) := kernelMemoryObjectAcquire (s.objects object)
    some ({ status := status }, s.put object s.machine value)
  | .release object =>
    (kernelMemoryObjectRelease s.machine (s.objects object)).map fun (m, value) =>
      ({ status := .ok }, s.put object m value)
  | .getLookup object index preparing heap =>
    (getPageLookup s.machine (s.objects object) index preparing heap).map fun (reply, m, value) =>
      match reply with
      | none => ({ status := .ok }, s.put object m value)
      | some reply => (reply, (s.put object m value).handOut object index preparing reply)
  | .getPublish object heap frame =>
    match (s.objects object).busy with
    | none => none
    | some missing =>
      (getPagePublish s.machine (s.objects object) missing heap frame).map fun (reply, m, value) =>
        (reply, (s.put object m value).handOut object missing.index missing.preparing reply)
  | .finish token accepted =>
    (kernelMemoryObjectFinishPage s.machine (s.objects token.object) token.index token.address accepted).map fun (m, value) =>
        ({ status := .ok }, { s.put token.object m value with
          pending := s.pending.erase token
          held := if accepted then token.address :: s.held else s.held })
  | .discard object index address =>
    (kernelMemoryObjectDiscardNewPage s.machine (s.objects object) index address).map fun (m, value) =>
      ({ status := .ok }, s.put object m value)
  | .find object index =>
    (kernelMemoryObjectFindPage s.machine (s.objects object) index).map fun (reply, m, value) =>
      (reply, (s.put object m value).handOut object index false reply)
  | .truncate object size =>
    (kernelMemoryObjectTruncate s.machine (s.objects object) size).map fun (m, value) =>
      ({ status := .ok }, s.put object m value)
  | .share address =>
    (physicalPageAcquire s.machine address).map fun m =>
      ({ status := .ok }, { s with machine := m, held := address :: s.held })
  | .drop address =>
    (physicalPageRelease s.machine address).map fun m =>
      ({ status := .ok }, { s with machine := m, held := s.held.erase address })
  | .write address offset value =>
    some ({ status := .ok }, { s with
      machine := { s.machine with
        contents := update s.machine.contents address (update (s.machine.contents address) offset value) } })

end BoarOS.MemoryObject
