import BoarOS.Data.BitWord

namespace BoarOS.Pid
open Function (update)
open Data

/-! # Process numbers and identities (`kernel/pid.c`)

Callers hold the identity lock, so every call is one step. A chain of `hash_next` links and the
list of a role are lists of identities and of members.
-/

def uint32Max : Nat := 2 ^ 32 - 1
def int32Max : Nat := 2 ^ 31 - 1
def kernelPidBuckets : Nat := 256
def kernelPidGenerationMax : Nat := (2 ^ 64 - 1) >>> 30

inductive Status where
  | ok
  | invalid
  | exhausted
  | notAllocated
  | state
deriving DecidableEq

/-- `struct kernel_pid_allocator`; the words of the bitmap are unsigned 64-bit. -/
structure Allocator where
  bitmap : Nat → Nat
  limit : Nat
  cursor : Nat
  allocated : Nat

namespace Allocator

def valid (numbers : Allocator) : Bool :=
  numbers.limit ≠ 0 && numbers.limit ≤ int32Max && numbers.cursor < numbers.limit && numbers.allocated ≤ numbers.limit

def taken (numbers : Allocator) (index : Nat) : Bool := (numbers.bitmap (index / 64)).testBit (index % 64)

def setWord (numbers : Allocator) (word value : Nat) : Allocator :=
  { numbers with bitmap := update numbers.bitmap word value }

/-- The scan of `kernel_pid_allocate` from `scanned`, with `fuel` turns left. -/
def scan (numbers : Allocator) (scanned : Nat) : Nat → Option Nat
  | 0 => none
  | fuel + 1 =>
    let start := numbers.cursor + scanned
    let index := if start ≥ numbers.limit then start - numbers.limit else start
    if numbers.bitmap (index / 64) &&& 2 ^ (index % 64) ≠ 0 then scan numbers (scanned + 1) fuel else some index

def allocate (numbers : Allocator) : Except Status (Nat × Allocator) :=
  if numbers.valid = false then .error .state
  else if numbers.allocated = numbers.limit then .error .exhausted
  else match numbers.scan 0 numbers.limit with
    | none => .error .state
    | some index =>
      let word := index / 64
      .ok (index + 1, { numbers.setWord word (numbers.bitmap word ||| 2 ^ (index % 64)) with
        allocated := numbers.allocated + 1
        cursor := if index + 1 = numbers.limit then 0 else index + 1 })

def release (numbers : Allocator) (number : Nat) : Except Status Allocator :=
  let index := number - 1
  let word := index / 64
  if number = 0 then .error .invalid
  else if numbers.valid = false then .error .state
  else if index ≥ numbers.limit then .error .invalid
  else if numbers.bitmap word &&& 2 ^ (index % 64) = 0 then .error .notAllocated
  else if numbers.allocated = 0 then .error .state
  else .ok { numbers.setWord word (numbers.bitmap word &&& (2 ^ 64 - (2 ^ (index % 64) + 1))) with
    allocated := numbers.allocated - 1
    cursor := if index < numbers.cursor then index else numbers.cursor }

end Allocator

inductive Published where
  | reserved
  | indexed
  | detached
  | retired
deriving DecidableEq

inductive Role where
  | tid
  | tgid
  | pgid
  | sid
deriving DecidableEq

def Role.all : List Role := [.tid, .tgid, .pgid, .sid]
def unused (members : Role → List Nat) : Bool := Role.all.all fun role => members role = []

/-- `handles` counts the references that no member holds. -/
structure Identity where
  number : Nat
  references : Nat
  generation : Nat
  published : Published
  registered : Bool
  members : Role → List Nat
  handles : Nat

structure Member where
  identity : Option Nat
  role : Role
  task : Nat

/-- `reservations` has the generations in the order of reservation, `returned` those whose number was given back
and `retirements` those that were retired. -/
structure Registry where
  numbers : Allocator
  buckets : Nat → List Nat
  retired : List Nat
  nextGeneration : Nat
  identities : Nat → Identity
  members : Nat → Member
  reservations : List Nat
  returned : List Nat
  retirements : List Nat

namespace Registry

def initial (limit : Nat) : Registry :=
  { numbers := ⟨fun _ => 0, limit, 0, 0⟩, buckets := fun _ => [], retired := [], nextGeneration := 1
    identities := fun _ => ⟨0, 0, 0, .reserved, false, fun _ => [], 0⟩, members := fun _ => ⟨none, .tid, 0⟩
    reservations := [], returned := [], retirements := [] }

def setIdentity (s : Registry) (id : Nat) (identity : Identity) : Registry :=
  { s with identities := update s.identities id identity }

def find (s : Registry) (number : Int) : Option Nat :=
  if number ≤ 0 then none
  else (s.buckets (number.toNat % kernelPidBuckets)).find? fun id => (s.identities id).number = number.toNat

def nextInWord (s : Registry) (word : Nat) : Nat → Nat → Option (Option Nat)
  | 0, _ => none
  | fuel + 1, bits =>
    if bits = 0 then none
    else
      let index := word * 64 + lowestBit 64 bits
      if index ≥ s.numbers.limit then some none
      else match s.find (index + 1 : Nat) with
        | some id => some (some id)
        | none => nextInWord s word fuel (bits &&& (bits - 1))

def nextFrom (s : Registry) (word bits : Nat) : Nat → Option Nat
  | 0 => none
  | count + 1 => match s.nextInWord word 65 bits with
    | some result => result
    | none => nextFrom s (word + 1) (s.numbers.bitmap (word + 1)) count

def nextPublished (s : Registry) (after : Int) : Option Nat :=
  if s.numbers.valid = false ∨ after < 0 ∨ after.toNat ≥ s.numbers.limit then none
  else
    let word := after.toNat / 64
    s.nextFrom word (s.numbers.bitmap word &&& ((2 ^ 64 - 1) <<< (after.toNat % 64) % 2 ^ 64)) ((s.numbers.limit + 63) / 64 - word)

/-- The identities that a caller meets who goes on from each number to the next published one. -/
def enumerate (s : Registry) : Nat → Nat → List Nat
  | 0, _ => []
  | fuel + 1, after => match s.nextPublished after with
    | none => []
    | some id => id :: enumerate s fuel (s.identities id).number

def linkAfter (id : Nat) : List Nat → Option Nat
  | [] => none
  | first :: rest => if first = id then rest.head? else linkAfter id rest

/-- `identity->hash_next`, which links the chain that holds the identity, if any does. -/
def hashNext (s : Registry) (id : Nat) : Option Nat :=
  (linkAfter id (s.buckets ((s.identities id).number % kernelPidBuckets))).or (linkAfter id s.retired)

def reserve (s : Registry) (id : Nat) : Status × Registry :=
  let prepared := s.identities id
  if prepared.registered ∨ prepared.published ≠ .reserved ∨ s.nextGeneration = 0 then (.state, s)
  else if s.nextGeneration > kernelPidGenerationMax then (.exhausted, s)
  else match s.numbers.allocate with
    | .error status => (status, s)
    | .ok (number, numbers) =>
      (.ok, { s.setIdentity id { prepared with
          number := number, generation := s.nextGeneration, references := 1, registered := true, handles := 1 } with
        numbers := numbers
        nextGeneration := s.nextGeneration + 1
        reservations := s.reservations ++ [s.nextGeneration] })

/-- `kernel_pid_publish_reserved`; no result is a trap. -/
def publishReserved (s : Registry) (id : Nat) : Option (Status × Registry) :=
  let prepared := s.identities id
  if prepared.registered = false ∨ prepared.references = 0 ∨ prepared.published ≠ .reserved then some (.state, s)
  else if s.find prepared.number ≠ none ∨ s.hashNext id ≠ none then none
  else
    let bucket := prepared.number % kernelPidBuckets
    some (.ok, { s.setIdentity id { prepared with published := .indexed } with
      buckets := update s.buckets bucket (id :: s.buckets bucket) })

def publish (s : Registry) (id : Nat) : Option (Status × Registry) :=
  match s.reserve id with
  | (.ok, reserved) => reserved.publishReserved id
  | failed => some failed

/-- `kernel_pid_get`; the caller's reference is a handle. -/
def get (s : Registry) (id : Nat) : Option Registry :=
  let identity := s.identities id
  if identity.registered = false ∨ identity.published = .retired ∨ identity.references = 0 ∨
      identity.references = uint32Max then none
  else some (s.setIdentity id { identity with
    references := identity.references + 1, handles := identity.handles + 1 })

def detachNumber (s : Registry) (id : Nat) : Option Registry :=
  let identity := s.identities id
  let bucket := identity.number % kernelPidBuckets
  let unlinked : Option Registry :=
    if identity.published = .indexed then
      if id ∈ s.buckets bucket then
        some { s with buckets := update s.buckets bucket ((s.buckets bucket).erase id) }
      else none
    else if identity.published ≠ .reserved ∨ s.hashNext id ≠ none then none
    else some s
  unlinked.bind fun s => match s.numbers.release identity.number with
    | .error _ => none
    | .ok numbers => some { s.setIdentity id { identity with published := .detached } with
        numbers := numbers, returned := s.returned ++ [identity.generation] }

/-- `kernel_pid_put` of a reference that is not a handle any more. -/
def drop (s : Registry) (id : Nat) : Option Registry :=
  let identity := s.identities id
  if identity.registered = false ∨ identity.published = .retired ∨ identity.references = 0 then none
  else
    let s := s.setIdentity id { identity with references := identity.references - 1 }
    if identity.references - 1 ≠ 0 then some s
    else if unused identity.members = false then none
    else (if identity.published ≠ .detached then s.detachNumber id else some s).map fun s =>
      { s.setIdentity id { s.identities id with published := .retired, registered := false } with
        retired := id :: s.retired
        retirements := s.retirements ++ [identity.generation] }

def put (s : Registry) (id : Nat) : Option Registry :=
  (s.setIdentity id { s.identities id with handles := (s.identities id).handles - 1 }).drop id

def attach (s : Registry) (m id : Nat) (role : Role) (task : Nat) : Option Registry :=
  let identity := s.identities id
  if (s.members m).identity ≠ none ∨ task = 0 ∨ (identity.published ≠ .reserved ∧ identity.published ≠ .indexed)
  then none
  else (s.get id).map fun s =>
    { s.setIdentity id { s.identities id with
        handles := identity.handles
        members := update identity.members role (m :: identity.members role) } with
      members := update s.members m ⟨some id, role, task⟩ }

def detach (s : Registry) (m : Nat) : Option Registry :=
  match (s.members m).identity with
  | none => none
  | some id =>
    let role := (s.members m).role
    let members := update (s.identities id).members role (((s.identities id).members role).erase m)
    let left : Registry := { s.setIdentity id { s.identities id with members := members } with
      members := update s.members m { s.members m with identity := none, task := 0 } }
    let unnumbered :=
      if (s.identities id).published = .indexed ∧ unused members = true then left.detachNumber id else some left
    unnumbered.bind fun s => s.drop id

def transfer (s : Registry) (old replacement task : Nat) : Option Registry :=
  match (s.members old).identity with
  | none => none
  | some id =>
    if (s.members replacement).identity ≠ none ∨ task = 0 then none
    else
      let role := (s.members old).role
      let identity := s.identities id
      some { s.setIdentity id { identity with
          members := update identity.members role ((identity.members role).map fun m => if m = old then replacement else m) } with
        members := update (update s.members replacement ⟨some id, role, task⟩) old
          { s.members old with identity := none, task := 0 } }

def takeRetired (s : Registry) : Option Registry :=
  match s.retired with
  | [] => some s
  | id :: rest =>
    if (s.identities id).published ≠ .retired then none
    else some { s.setIdentity id { s.identities id with published := .reserved } with retired := rest }

end Registry

inductive Step where
  | reserve (id : Nat)
  | publishReserved (id : Nat)
  | publish (id : Nat)
  | get (id : Nat)
  | put (id : Nat)
  | attach (m id : Nat) (role : Role) (task : Nat)
  | detach (m : Nat)
  | transfer (old replacement task : Nat)
  | takeRetired

namespace Registry

def step (s : Registry) : Step → Option Registry
  | .reserve id => some (s.reserve id).2
  | .publishReserved id => (s.publishReserved id).map Prod.snd
  | .publish id => (s.publish id).map Prod.snd
  | .get id => s.get id
  | .put id => s.put id
  | .attach m id role task => s.attach m id role task
  | .detach m => s.detach m
  | .transfer old replacement task => s.transfer old replacement task
  | .takeRetired => s.takeRetired

/-- What a caller owes: a reference is given back by who has it, and a member joins an identity that still has its
number. -/
def Disciplined (s : Registry) : Step → Prop
  | .get id => (s.identities id).registered = true ∧ (s.identities id).references < uint32Max
  | .put id => 0 < (s.identities id).handles
  | .attach m id _ task => (s.members m).identity = none ∧ task ≠ 0 ∧ (s.identities id).registered = true ∧
      ((s.identities id).published = .reserved ∨ (s.identities id).published = .indexed) ∧
      (s.identities id).references < uint32Max
  | .detach m => (s.members m).identity ≠ none
  | .transfer old replacement task =>
    (s.members old).identity ≠ none ∧ (s.members replacement).identity = none ∧ task ≠ 0
  | _ => True

/-- A reference is put at most once by who has it. -/
def Matched (s : Registry) : Step → Prop
  | .put id => 0 < (s.identities id).handles
  | _ => True

inductive Reachable (limit : Nat) : Registry → Prop where
  | initial : Reachable limit (initial limit)
  | step {s after : Registry} {step : Step} : Reachable limit s → s.Matched step → s.step step = some after →
      Reachable limit after

end Registry
end BoarOS.Pid
