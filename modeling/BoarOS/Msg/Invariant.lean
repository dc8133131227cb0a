import BoarOS.Msg.Model
import BoarOS.Data.FamilySum

namespace BoarOS.Msg
open Function Finset
open Data

/-! # Who waits on a queue, and what the counters say -/

def Request.Ok (r : Request) : Prop :=
  match r.phase with
  | .idle => r.message = none
  | .trying => r.sends = true ∧ (∃ m, r.message = some m ∧ m.size = r.size) ∨ r.sends = false ∧ r.message = none
  | .parked => r.sends = true ∧ (∃ m, r.message = some m ∧ m.size = r.size) ∧ r.result ≠ .ok ∨
      r.sends = false ∧ (r.message = none ∧ r.result ≠ .ok ∨ r.message ≠ none ∧ r.result = .ok)
  | .copying => r.sends = false
  | .done result => (r.sends = false → r.message = none) ∧ (result = .ok → r.message = none)

structure Request.Waits (r : Request) (q : Nat) (sends : Bool) : Prop where
  phase : r.phase = .parked
  sends : r.sends = sends
  queue : r.queue = q
  result : r.result = .again

/-- The lists and counters of the queues; a sender in `pending` may be one that fits. -/
structure Waiters (queues : Nat → Queue) (nextQueue : Nat) (requests : Nat → Request) (messages bytes : Nat)
    (pending : Nat → Nat → Prop) : Prop where
  request : ∀ t, (requests t).Ok
  queued : ∀ t, (requests t).phase ≠ .idle → (requests t).queue < nextQueue
  copies : ∀ t, (requests t).sends = false → (requests t).flags.copy = true → (requests t).flags.nowait = true
  sender : ∀ q, ∀ t ∈ (queues q).senders, (requests t).Waits q true
  blocked : ∀ q, ∀ t ∈ (queues q).senders, pending q t ∨ fits (queues q) (requests t).size = false
  receiver : ∀ q, ∀ t ∈ (queues q).receivers, (requests t).Waits q false
  starved : ∀ q, ∀ t ∈ (queues q).receivers, ∀ m ∈ (queues q).messages, messageMatches m (requests t).type (requests t).flags = false
  senders : ∀ q, (queues q).senders.Nodup
  receivers : ∀ q, (queues q).receivers.Nodup
  count : ∀ q, (queues q).count = (queues q).messages.length
  size : ∀ q, (queues q).bytes = ((queues q).messages.map Message.size).sum
  removed : ∀ q, (queues q).removed = true → (queues q).messages = [] ∧ (queues q).senders = [] ∧ (queues q).receivers = []
  unborn : ∀ q, nextQueue ≤ q → queues q = .new
  messages : messages = ∑ q ∈ Finset.range nextQueue, (queues q).count
  bytes : bytes = ∑ q ∈ Finset.range nextQueue, (queues q).bytes

structure System.Consistent (s : System) (pending : Nat → Nat → Prop) : Prop where
  custody : Custody Message.name (fun t => (s.requests t).party) (fun q => (s.queues q).messages) s.place s.nextName
  waiters : Waiters s.queues s.nextQueue s.requests s.messages s.bytes pending

theorem parties_update (reqs : Nat → Request) (t : Nat) (r : Request) :
    (fun u => (update reqs t r u).party) = update (fun u => (reqs u).party) t r.party := by
  funext u
  by_cases here : u = t
  · subst here
    rw [update_self, update_self]
  · rw [update_of_ne here, update_of_ne here]

theorem stores_update (qs : Nat → Queue) (q : Nat) (queue : Queue) :
    (fun p => (update qs q queue p).messages) = update (fun p => (qs p).messages) q queue.messages := by
  funext p
  by_cases here : p = q
  · subst here
    rw [update_self, update_self]
  · rw [update_of_ne here, update_of_ne here]

theorem stores_same (qs : Nat → Queue) (q : Nat) (queue : Queue) (eq : queue.messages = (qs q).messages) :
    (fun p => (update qs q queue p).messages) = fun p => (qs p).messages := by
  rw [stores_update, eq]
  exact update_eq_self ..

variable {qs : Nat → Queue} {nextQueue : Nat} {reqs : Nat → Request} {messages bytes : Nat}
  {pend : Nat → Nat → Prop} {t u q : Nat} {r : Request} {queue : Queue} {m : Message}

theorem sum_update (weight : Queue → Nat) (lt : q < nextQueue) : (∑ p ∈ range nextQueue, weight (update qs q queue p)) + weight (qs q) =
      (∑ p ∈ range nextQueue, weight (qs p)) + weight queue :=
  sum_update_add_of_mem qs weight (mem_range.mpr lt) queue

namespace Waiters

def without (queue : Queue) (t : Nat) : Queue :=
  { queue with senders := queue.senders.erase t, receivers := queue.receivers.erase t }

section
variable (ws : Waiters qs nextQueue reqs messages bytes pend)
include ws

theorem sender_queue (mem : t ∈ (qs q).senders ∨ t ∈ (qs q).receivers) : (reqs t).phase = .parked ∧ (reqs t).queue = q := by
  rcases mem with mem | mem
  · exact ⟨(ws.sender q t mem).phase, (ws.sender q t mem).queue⟩
  · exact ⟨(ws.receiver q t mem).phase, (ws.receiver q t mem).queue⟩

theorem outside (pos : (reqs t).phase ≠ .parked) (q : Nat) : t ∉ (qs q).senders ∧ t ∉ (qs q).receivers :=
  ⟨fun mem => pos (ws.sender_queue (.inl mem)).1, fun mem => pos (ws.sender_queue (.inr mem)).1⟩

theorem leave (ok : r.Ok) (queued : r.phase ≠ .idle → r.queue < nextQueue)
    (copies : r.sends = false → r.flags.copy = true → r.flags.nowait = true) :
    Waiters (update qs (reqs t).queue (without (qs (reqs t).queue) t)) nextQueue (update reqs t r) messages bytes pend := by
  -- who is in a list after the change was in it before, is another task, and finds the same queue
  have pre (q u : Nat) : (u ∈ (update qs (reqs t).queue (without (qs (reqs t).queue) t) q).senders → u ∈ (qs q).senders ∧ u ≠ t) ∧
      (u ∈ (update qs (reqs t).queue (without (qs (reqs t).queue) t) q).receivers → u ∈ (qs q).receivers ∧ u ≠ t) := by
    by_cases here : q = (reqs t).queue
    · subst here
      rw [update_self]
      refine ⟨fun mem => ?_, fun mem => ?_⟩
      · obtain ⟨ne, old⟩ := (ws.senders _).mem_erase_iff.mp mem
        exact ⟨old, ne⟩
      · obtain ⟨ne, old⟩ := (ws.receivers _).mem_erase_iff.mp mem
        exact ⟨old, ne⟩
    rw [update_of_ne here]
    refine ⟨fun mem => ⟨mem, ?_⟩, fun mem => ⟨mem, ?_⟩⟩
    · rintro rfl
      exact here (ws.sender_queue (.inl mem)).2.symm
    · rintro rfl
      exact here (ws.sender_queue (.inr mem)).2.symm
  have eq {β : Type} (field : Queue → β) (kept : ∀ queue, field (without queue t) = field queue) (q : Nat) :
      field (update qs (reqs t).queue (without (qs (reqs t).queue) t) q) = field (qs q) := by
    by_cases here : q = (reqs t).queue
    · subst here
      rw [update_self, kept]
    · rw [update_of_ne here]
  have messagesSame := eq Queue.messages fun _ => rfl
  have fitsSame (size : Nat) := eq (fits · size) fun _ => rfl
  refine ⟨?_, ?_, ?_, fun q u mem => ?_, fun q u mem => ?_, fun q u mem => ?_, fun q u mem => ?_, fun q => ?_,
    fun q => ?_, fun q => ?_, fun q => ?_, fun q gone => ?_, fun q high => ?_, ?_, ?_⟩
  · rw [Function.forall_update_iff reqs fun _ r => r.Ok]
    exact ⟨ok, fun u _ => ws.request u⟩
  · rw [Function.forall_update_iff reqs fun _ r => r.phase ≠ .idle → r.queue < nextQueue]
    exact ⟨queued, fun u _ => ws.queued u⟩
  · rw [Function.forall_update_iff reqs fun _ r => r.sends = false → r.flags.copy = true → r.flags.nowait = true]
    exact ⟨copies, fun u _ => ws.copies u⟩
  · obtain ⟨old, ne⟩ := (pre q u).1 mem
    rw [update_of_ne ne]
    exact ws.sender q u old
  · obtain ⟨old, ne⟩ := (pre q u).1 mem
    rw [update_of_ne ne, fitsSame]
    exact ws.blocked q u old
  · obtain ⟨old, ne⟩ := (pre q u).2 mem
    rw [update_of_ne ne]
    exact ws.receiver q u old
  · obtain ⟨old, ne⟩ := (pre q u).2 mem
    rw [update_of_ne ne, messagesSame]
    exact ws.starved q u old
  · by_cases here : q = (reqs t).queue
    · subst here
      rw [update_self]
      exact (ws.senders _).erase t
    · rw [update_of_ne here]
      exact ws.senders q
  · by_cases here : q = (reqs t).queue
    · subst here
      rw [update_self]
      exact (ws.receivers _).erase t
    · rw [update_of_ne here]
      exact ws.receivers q
  · rw [eq Queue.count fun _ => rfl, messagesSame]
    exact ws.count q
  · rw [eq Queue.bytes fun _ => rfl, messagesSame]
    exact ws.size q
  · rw [eq Queue.removed fun _ => rfl] at gone
    obtain ⟨none_, senders, receivers⟩ := ws.removed q gone
    rw [messagesSame]
    refine ⟨none_, List.eq_nil_iff_forall_not_mem.mpr fun u mem => ?_, List.eq_nil_iff_forall_not_mem.mpr fun u mem => ?_⟩
    · have old := ((pre q u).1 mem).1
      rw [senders] at old
      cases old
    have old := ((pre q u).2 mem).1
    rw [receivers] at old
    cases old
  · have blank := ws.unborn q high
    by_cases here : q = (reqs t).queue
    · subst here
      rw [update_self, blank]
      rfl
    · rw [update_of_ne here]
      exact blank
  · exact ws.messages.trans (sum_congr rfl fun q _ => (eq Queue.count (fun _ => rfl) q).symm)
  · exact ws.bytes.trans (sum_congr rfl fun q _ => (eq Queue.bytes (fun _ => rfl) q).symm)

theorem setRequest (pos : (reqs t).phase ≠ .parked) (ok : r.Ok) (queued : r.phase ≠ .idle → r.queue < nextQueue)
    (copies : r.sends = false → r.flags.copy = true → r.flags.nowait = true) :
    Waiters qs nextQueue (update reqs t r) messages bytes pend := by
  have left := ws.leave (t := t) ok queued copies
  have out := ws.outside pos (reqs t).queue
  have eq : without (qs (reqs t).queue) t = qs (reqs t).queue := by
    rw [without, List.erase_of_not_mem out.1, List.erase_of_not_mem out.2]
  rw [eq, update_eq_self] at left
  exact left

end
end Waiters
end BoarOS.Msg
