import Mathlib.Algebra.Ring.Nat
import Mathlib.Data.Finset.Card

namespace BoarOS.SplitQueue
open Finset
open Function (update update_self update_of_ne)

/-! # The virtio split queue

Everything the driver reads from shared memory is an argument of the call that reads it: the
device answers as it likes, and differently each time. A walk that does not end, or an access
past the end of a ring, stops the model.
-/

def maxSize : Nat := 64

inductive Status where
  | ok | invalid | unsupported | device | state | empty | full
deriving DecidableEq

inductive FaultReason where
  | overflow | badHead | badLength
deriving DecidableEq

structure Fault where
  reason : FaultReason
  usedIndex : Nat
  observedCount : Nat
  consumed : Nat
  head : Nat
  length : Nat

structure Descriptor where
  address : Nat
  length : Nat
  flags : Nat
  next : Nat

structure Transport where
  name : Nat
  writes : Bool
  started : Bool
  quiescent : Bool
  indirect : Bool

structure Owner where
  token : Nat
  mask : Finset Nat
  minLength : Nat
  maxLength : Nat

structure Queue where
  transport : Option Nat := none
  size : Nat := 0
  lastUsed : Nat := 0
  nextAvailable : Nat := 0
  inflight : Nat := 0
  claimed : Finset Nat := ∅
  owners : Nat → Option Owner := fun _ => none
  fault : Option Fault := none

/-- `reads n i` is descriptor `i` as the `n`-th step of the walk reads it. -/
inductive Call where
  | init (memory capacity size available used : Nat)
  | enqueue (t : Transport) (head token minLength maxLength : Nat) (reads : Nat → Nat → Descriptor) (availableIndex : Nat)
  | take (usedIndex : Nat) (ring : Nat → Nat × Nat)
  | reset (t : Transport)

structure Completion where
  token : Nat
  head : Nat
  length : Nat
deriving DecidableEq

structure Reply where
  status : Status
  done : Option Completion := none
deriving DecidableEq

def walk (size head : Nat) (indirect : Bool) (reads : Nat → Nat → Descriptor) : Nat → Finset Nat → Nat → Option (Except Status (Finset Nat))
  | 0, _, _ => none
  | fuel + 1, mask, index =>
    if index ≥ size ∨ index ∈ mask then some (.error .state)
    else
      let d := reads mask.card index
      if d.address > 2 ^ 64 - 1 - d.length ∨ d.flags / 8 ≠ 0 then some (.error .state)
      else if d.flags.testBit 2 then
        if !indirect then some (.error .unsupported)
        else if index ≠ head ∨ d.flags ≠ 4 ∨ d.address % 16 ≠ 0 ∨ d.length = 0 ∨ d.length % 16 ≠ 0 then
          some (.error .state)
        else some (.ok (insert index mask))
      else if d.flags.testBit 0 then walk size head indirect reads fuel (insert index mask) d.next
      else some (.ok (insert index mask))

namespace Queue

def splitInitialize (q : Queue) (memory capacity size available used : Nat) : Queue × Reply :=
  if memory = 0 ∨ memory % 16 ≠ 0 ∨ size = 0 ∨ size > maxSize ∨ size &&& (size - 1) ≠ 0 ∨ available < 16 * size ∨
      available % 2 ≠ 0 ∨ used % 4 ≠ 0 ∨ available > capacity ∨ 6 + 2 * size > capacity - available ∨
      used < available + 6 + 2 * size ∨ used > capacity ∨ 6 + 8 * size > capacity - used then (q, ⟨.invalid, none⟩)
  else if q.inflight ≠ 0 ∨ q.transport ≠ none then (q, ⟨.state, none⟩)
  else ({ size := size }, ⟨.ok, none⟩)

def splitEnqueue (q : Queue) (t : Transport) (head token minLength maxLength : Nat) (reads : Nat → Nat → Descriptor)
    (availableIndex : Nat) : Option (Queue × Reply) :=
  if q.size = 0 ∨ !t.writes ∨ token = 0 ∨ head ≥ q.size ∨ minLength > maxLength then some (q, ⟨.invalid, none⟩)
  else if q.fault.isSome ∨ !t.started ∨ t.quiescent ∨ q.transport ≠ none ∧ q.transport ≠ some t.name then
    some (q, ⟨.state, none⟩)
  else if q.inflight = q.size then some (q, ⟨.full, none⟩)
  else match walk q.size head t.indirect reads (q.size + 1) ∅ head with
    | none => none
    | some (.error status) => some (q, ⟨status, none⟩)
    | some (.ok mask) =>
      if ¬ Disjoint mask q.claimed ∨ (q.owners head).isSome ∨ availableIndex ≠ q.nextAvailable then
        some (q, ⟨.state, none⟩)
      else if q.nextAvailable % q.size < q.size then
        some ({ q with
          transport := some t.name, owners := update q.owners head (some ⟨token, mask, minLength, maxLength⟩)
          claimed := q.claimed ∪ mask, inflight := q.inflight + 1
          nextAvailable := (q.nextAvailable + 1) % 2 ^ 16 }, ⟨.ok, none⟩)
      else none

def splitTake (q : Queue) (usedIndex : Nat) (ring : Nat → Nat × Nat) : Option (Queue × Reply) :=
  let count := (usedIndex + 2 ^ 16 - q.lastUsed) % 2 ^ 16
  let failed (q : Queue) (reason : FaultReason) (head length : Nat) : Option (Queue × Reply) :=
    some ({ q with fault := some ⟨reason, usedIndex, count, q.lastUsed, head, length⟩ }, ⟨.device, none⟩)
  if q.size = 0 then some (q, ⟨.invalid, none⟩)
  else if q.fault.isSome then some (q, ⟨.state, none⟩)
  else if count > q.size then failed q .overflow (2 ^ 32 - 1) 0
  else if count = 0 then some (q, ⟨.empty, none⟩)
  else if q.lastUsed % q.size < q.size then
    let (id, length) := ring (q.lastUsed % q.size)
    let q := { q with lastUsed := (q.lastUsed + 1) % 2 ^ 16 }
    if id ≥ q.size then failed q .badHead id length
    else match q.owners id with
      | none => failed q .badHead id length
      | some o =>
        if length < o.minLength ∨ length > o.maxLength then failed q .badLength id length
        else some ({ q with
          claimed := q.claimed \ o.mask, inflight := q.inflight - 1, owners := update q.owners id none },
          ⟨.ok, some ⟨o.token, id, length⟩⟩)
  else none

def splitReset (q : Queue) (t : Transport) : Queue × Reply :=
  if q.size = 0 then (q, ⟨.invalid, none⟩)
  else if !t.quiescent ∨ t.started ∨ q.transport ≠ none ∧ q.transport ≠ some t.name then (q, ⟨.state, none⟩)
  else ({ size := q.size }, ⟨.ok, none⟩)

def call (q : Queue) : Call → Option (Queue × Reply)
  | .init memory capacity size available used => some (q.splitInitialize memory capacity size available used)
  | .enqueue t head token minLength maxLength reads availableIndex =>
    q.splitEnqueue t head token minLength maxLength reads availableIndex
  | .take usedIndex ring => q.splitTake usedIndex ring
  | .reset t => some (q.splitReset t)

end Queue

/-- By head, the token and the bounds of what is enqueued and not yet returned. -/
abbrev Held := Nat → Option (Nat × Nat × Nat)

/-- What is held, told from the calls and their replies alone. -/
def note (held : Held) : Call → Reply → Held
  | .enqueue _ head token low high _ _, ⟨.ok, _⟩ => update held head (some (token, low, high))
  | .take _ _, ⟨.ok, some done⟩ => update held done.head none
  | .init .., ⟨.ok, _⟩ | .reset _, ⟨.ok, _⟩ => fun _ => none
  | _, _ => held

inductive Reachable : Queue → Held → Prop where
  | start : Reachable {} fun _ => none
  | call {q after held c reply} : Reachable q held → q.call c = some (after, reply) → Reachable after (note held c reply)

variable {q after s' : Queue} {held : Held} {c : Call} {reply : Reply}

theorem walk_ends {size head : Nat} {indirect : Bool} {reads : Nat → Nat → Descriptor} {fuel : Nat} {mask : Finset Nat}
    {i : Nat} (within : mask ⊆ range size) (enough : size < mask.card + fuel) :
    ∃ res, walk size head indirect reads fuel mask i = some res ∧ res ≠ .error .ok ∧
      ∀ marked, res = .ok marked → insert i mask ⊆ marked := by
  induction fuel generalizing mask i with
  | zero => exact absurd (card_le_card within) (by simpa using enough)
  | succ fuel induction =>
    unfold walk
    split
    · exact ⟨_, rfl, nofun, nofun⟩
    rename_i new
    rw [not_or, not_le] at new
    have larger := card_insert_of_notMem new.2
    dsimp only
    split
    · exact ⟨_, rfl, nofun, nofun⟩
    split
    · split
      · exact ⟨_, rfl, nofun, nofun⟩
      split
      · exact ⟨_, rfl, nofun, nofun⟩
      · exact ⟨_, rfl, nofun, fun marked eq => by cases eq; rfl⟩
    split
    · obtain ⟨res, walked, fails, marks⟩ := @induction (insert i mask) _ (insert_subset (mem_range.mpr new.1) within) (by omega)
      exact ⟨res, walked, fails, fun marked eq => (subset_insert _ _).trans (marks marked eq)⟩
    · exact ⟨_, rfl, nofun, fun marked eq => by cases eq; rfl⟩

/-- The owners, and what they have to do with the calls and replies so far. -/
structure Inv (q : Queue) (held : Held) : Prop where
  small : q.size ≤ maxSize
  owner : ∀ h o, q.owners h = some o → h < q.size ∧ h ∈ o.mask
  apart : ∀ h k o p, q.owners h = some o → q.owners k = some p → h ≠ k → Disjoint o.mask p.mask
  claimed : ∀ i, i ∈ q.claimed ↔ ∃ h o, q.owners h = some o ∧ i ∈ o.mask
  inflight : q.inflight = ((Finset.range q.size).filter fun h => (q.owners h).isSome).card
  held : ∀ h, held h = (q.owners h).map fun o => (o.token, o.minLength, o.maxLength)

/-- A call keeps the invariant; what it completes was held; a recorded fault refuses all but a fresh start, and a call
that fails keeps the owners. -/
structure Fine (q : Queue) (held : Held) (c : Call) (after : Queue) (reply : Reply) : Prop where
  inv : Inv after (note held c reply)
  done : ∀ done, reply.done = some done → q.fault = none ∧ ∃ low high,
    held done.head = some (done.token, low, high) ∧ low ≤ done.length ∧ done.length ≤ high
  faulted : q.fault.isSome → reply.status = .ok → (∃ m n a b d, c = .init m n a b d) ∨ ∃ t, c = .reset t
  failed : reply.status ≠ .ok → after.owners = q.owners ∧ (q.fault.isSome → after.fault.isSome)

theorem Inv.blank (lt : size ≤ maxSize) : Inv { size := size } fun _ => none := by
  constructor <;> simp [lt]

theorem Inv.fail (inv : Inv q held) {st : Status} (fails : st ≠ .ok) {lastUsed : Nat} {fault : Option Fault}
    (keeps : q.fault.isSome → fault.isSome) :
    ∃ s' reply, some ({ q with lastUsed := lastUsed, fault := fault }, ⟨st, none⟩) = some (s', reply) ∧ Fine q held c s' reply := by
  have eq : note held c ⟨st, none⟩ = held := by
    unfold note
    split <;> simp_all
  exact ⟨_, _, rfl, by rw [eq]; exact { inv with }, nofun, fun _ ok => absurd ok fails, fun _ => ⟨rfl, keeps⟩⟩

theorem Inv.splitEnqueue (inv : Inv q held) (t : Transport) (head tok low high : Nat) (reads : Nat → Nat → Descriptor)
    (index : Nat) : ∃ s' reply, q.splitEnqueue t head tok low high reads index = some (s', reply) ∧
      Fine q held (.enqueue t head tok low high reads index) s' reply := by
  unfold Queue.splitEnqueue
  split
  · exact inv.fail (by decide) (by simp)
  rename_i valid
  split
  · exact inv.fail (by decide) (by simp)
  rename_i ready
  split
  · exact inv.fail (by decide) (by simp)
  obtain ⟨res, walked, fails, _⟩ := @walk_ends q.size head t.indirect reads (q.size + 1) ∅ head (empty_subset _) (by simp)
  rw [walked]
  cases res with
  | error st => exact inv.fail (fun ok => fails (congrArg _ ok)) id
  | ok mask =>
    dsimp only
    split
    · exact inv.fail (by decide) (by simp)
    rename_i free
    simp only [not_or] at valid ready free
    have vacant : q.owners head = none := by simpa using free.2.1
    rw [if_pos (Nat.mod_lt _ (Nat.pos_of_ne_zero valid.1))]
    refine ⟨_, _, rfl, ⟨inv.small, ?_, ?_, ?_, ?_, ?_⟩, nofun, fun fault => absurd fault ready.1, fun fails => absurd rfl fails⟩
    · intro h o
      have := inv.owner h o
      grind
    · intro h k o p
      have := inv.apart h k o p
      have := inv.claimed
      grind [disjoint_left]
    · intro i
      rw [mem_union, inv.claimed]
      constructor
      · rintro (⟨h, o, here, mem⟩ | mem)
        · exact ⟨h, o, by grind, mem⟩
        · exact ⟨head, _, update_self .., mem⟩
      · rintro ⟨h, _⟩
        grind
    · have cnt : (range q.size).filter (fun h => (update q.owners head (some ⟨tok, mask, low, high⟩) h).isSome) =
          insert head ((range q.size).filter fun h => (q.owners h).isSome) := by
        grind
      simp only [cnt, inv.inflight]
      rw [card_insert_of_notMem (by simp [vacant])]
    · intro h
      have := inv.held h
      simp only [note]
      grind

theorem Inv.splitTake (inv : Inv q held) (usedIndex : Nat) (ring : Nat → Nat × Nat) :
    ∃ s' reply, q.splitTake usedIndex ring = some (s', reply) ∧ Fine q held (.take usedIndex ring) s' reply := by
  dsimp only [Queue.splitTake]
  split
  · exact inv.fail (by decide) (by simp)
  rename_i size
  split
  · exact inv.fail (by decide) (by simp)
  rename_i healthy
  split
  · exact inv.fail (by decide) (by simp)
  split
  · exact inv.fail (by decide) (by simp)
  rw [if_pos (Nat.mod_lt _ (Nat.pos_of_ne_zero size))]
  generalize ring (q.lastUsed % q.size) = item
  obtain ⟨id, _⟩ := item
  split
  · exact inv.fail (by decide) (by simp)
  split
  · exact inv.fail (by decide) (by simp)
  rename_i o mine
  split
  · exact inv.fail (by decide) (by simp)
  rename_i fits
  rw [not_or, not_lt, not_lt] at fits
  refine ⟨_, _, rfl, ⟨inv.small, ?_, ?_, ?_, ?_, ?_⟩, ?_, fun fault => absurd fault healthy, fun fails => absurd rfl fails⟩
  · intro h p
    have := inv.owner h p
    grind
  · intro h k p r
    have := inv.apart h k p r
    grind
  · intro i
    rw [mem_sdiff, inv.claimed]
    constructor
    · rintro ⟨⟨h, p, here, within⟩, _⟩
      exact ⟨h, p, by grind, within⟩
    rintro ⟨h, p, here, within⟩
    have := inv.apart h id p o
    have ne : h ≠ id := by grind
    have here : q.owners h = some p := by grind
    exact ⟨⟨h, p, here, within⟩, disjoint_left.mp (this here mine ne) within⟩
  · have cnt : (range q.size).filter (fun h => (update q.owners id none h).isSome) =
        ((range q.size).filter fun h => (q.owners h).isSome).erase id := by
      grind
    simp only [cnt, inv.inflight]
    rw [card_erase_of_mem (by grind)]
  · intro h
    have := inv.held h
    simp only [note]
    grind
  · intro done eq
    cases eq
    exact ⟨by simpa using healthy, o.minLength, o.maxLength, by rw [inv.held, mine]; rfl, fits⟩

theorem Inv.call (inv : Inv q held) (c : Call) : ∃ s' reply, q.call c = some (s', reply) ∧ Fine q held c s' reply := by
  cases c with
  | init memory cap size available used =>
    unfold Queue.call Queue.splitInitialize
    dsimp only
    split
    · exact inv.fail (by decide) (by simp)
    split
    · exact inv.fail (by decide) (by simp)
    have blank : Inv { size := size } fun _ => none := Inv.blank (by omega)
    exact ⟨_, _, rfl, blank, nofun, fun _ _ => .inl ⟨_, _, _, _, _, rfl⟩, fun fails => absurd rfl fails⟩
  | enqueue t head tok low high reads i => exact inv.splitEnqueue t head tok low high reads i
  | take usedIndex ring => exact inv.splitTake usedIndex ring
  | reset t =>
    unfold Queue.call Queue.splitReset
    dsimp only
    split
    · exact inv.fail (by decide) (by simp)
    split
    · exact inv.fail (by decide) (by simp)
    · exact ⟨_, _, rfl, Inv.blank inv.small, nofun, fun _ _ => .inr ⟨t, rfl⟩, fun fails => absurd rfl fails⟩

theorem Reachable.inv (run : Reachable q held) : Inv q held := by
  induction run with
  | start => exact Inv.blank (Nat.zero_le _)
  | call _ called induction =>
    obtain ⟨_, _, res, fine⟩ := induction.call _
    rw [called] at res
    cases res
    exact fine.inv

/-- Whatever the device does, a call ends, and hands back only what is enqueued. -/
theorem split_queue_safe (reachable : Reachable q held) : Inv q held ∧
    ∀ c, ∃ after reply, q.call c = some (after, reply) ∧ Fine q held c after reply :=
  ⟨reachable.inv, reachable.inv.call⟩

/-- Two chains are enqueued and the second one is taken; the first is then in flight, and is what the next take returns. -/
theorem split_queue_safe_started : ∃ q held, Reachable q held ∧ q.inflight = 1 ∧ held 0 = some (7, 1, 4) ∧ held 1 = none ∧ Inv q held ∧
    (∃ after reply, q.call (.take 2 fun _ => (0, 3)) = some (after, reply) ∧ reply = ⟨.ok, some ⟨7, 0, 3⟩⟩ ∧
      Fine q held (.take 2 fun _ => (0, 3)) after reply) ∧
    ∃ after reply, q.call (.take 2 fun _ => (0, 9)) = some (after, reply) ∧ after.fault.isSome ∧ reply.done = none ∧
      Fine q held (.take 2 fun _ => (0, 9)) after reply := by
  have run := Reachable.start.call (rfl : Queue.call _ (.init 16 99 2 32 44) = some (_, ⟨.ok, none⟩))
  have run := run.call (rfl : Queue.call _ (.enqueue ⟨1, true, true, false, false⟩ 0 7 1 4 (fun _ _ => ⟨0, 0, 0, 0⟩) 0) = some (_, ⟨.ok, none⟩))
  have run := run.call (rfl : Queue.call _ (.enqueue ⟨1, true, true, false, false⟩ 1 8 0 0 (fun _ _ => ⟨0, 0, 0, 0⟩) 1) = some (_, ⟨.ok, none⟩))
  have run := run.call (rfl : Queue.call _ (.take 1 fun _ => (1, 0)) = some (_, ⟨.ok, some ⟨8, 1, 0⟩⟩))
  obtain ⟨inv, calls⟩ := split_queue_safe run
  obtain ⟨_, _, taken, fine⟩ := calls (.take 2 fun _ => (0, 3))
  obtain ⟨_, _, refused, faulted⟩ := calls (.take 2 fun _ => (0, 9))
  refine ⟨_, _, run, rfl, rfl, rfl, inv, ⟨_, _, taken, ?_, fine⟩, _, _, refused, ?_, ?_, faulted⟩
  · cases taken
    rfl
  · cases refused
    rfl
  · cases refused
    rfl

/-- A fault before the first enqueue does not outlive the next initialization, without a reset. -/
theorem fault_forgotten : (do
    let fresh ← ({} : Queue).call (.init 16 99 1 16 24)
    let faulted ← fresh.1.call (.take 5 fun _ => (0, 0))
    let again ← faulted.1.call (.init 16 99 1 16 24)
    let (_, reply) ← again.1.call (.enqueue ⟨1, true, true, false, false⟩ 0 1 0 0 (fun _ _ => ⟨0, 0, 0, 0⟩) 0)
    some (faulted.1.fault.isSome, again.2.status, reply.status)) = some (true, .ok, .ok) := by decide

end BoarOS.SplitQueue
