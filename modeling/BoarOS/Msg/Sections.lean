import BoarOS.Msg.Operations

namespace BoarOS.Msg
open Data Function List Msg.System Message

/-! # The loops and sections of the message queues -/

variable {s : System} {pend : Nat → Nat → Prop} {t u q : Nat} {r : Request} {m : Message} {res : Result}

def settled : Nat → Nat → Prop := fun _ _ => False

namespace System.Consistent
section
variable (inv : s.Consistent pend)
include inv

theorem leave (custody : Custody name (update (fun u => (s.requests u).party) t r.party) (fun p => (s.queues p).messages) pos s.nextName)
    (ok : r.Ok) (queued : r.phase ≠ .idle → r.queue < s.nextQueue)
    (copies : r.sends = false → r.flags.copy = true → r.flags.nowait = true) :
    Consistent { (s.requestRemove t).setRequest t r with place := pos } pend := by
  refine ⟨?_, inv.waiters.leave ok queued copies⟩
  change Custody name (fun u => (update s.requests t r u).party)
    (fun p => (update s.queues (s.requests t).queue _ p).messages) pos s.nextName
  rw [parties_update, stores_same]
  · exact custody
  · rfl

theorem setRequest (unparked : (s.requests t).phase ≠ .parked)
    (custody : Custody name (update (fun u => (s.requests u).party) t r.party) (fun p => (s.queues p).messages) pos s.nextName) (ok : r.Ok)
    (queued : r.phase ≠ .idle → r.queue < s.nextQueue) (copies : r.sends = false → r.flags.copy = true → r.flags.nowait = true) :
    Consistent { s.setRequest t r with place := pos } pend := by
  refine ⟨?_, inv.waiters.setRequest unparked ok queued copies⟩
  change Custody name (fun u => (update s.requests t r u).party) _ pos s.nextName
  rw [parties_update]
  exact custody

theorem setPhase (unparked : (s.requests t).phase ≠ .parked) (live : (s.requests t).phase ≠ .idle)
    (ok : Request.Ok { s.requests t with phase := ph }) : (s.setPhase t ph).Consistent pend :=
  inv.setRequest unparked (inv.custody.frame rfl fun _ => rfl) ok (fun _ => inv.waiters.queued t live) (inv.waiters.copies t)

theorem requestComplete (mem : t ∈ (s.queues q).senders ∨ t ∈ (s.queues q).receivers) (failed : res ≠ .ok) :
    (s.requestComplete t res).Consistent pend := by
  refine ⟨?_, inv.waiters.complete mem failed⟩
  change Custody name (fun u => (update s.requests t _ u).party)
    (fun p => (update s.queues (s.requests t).queue _ p).messages) s.place s.nextName
  rw [parties_update, stores_same]
  · exact inv.custody.frame rfl fun _ => rfl
  · rfl

end
end System.Consistent

/-- The tasks of a list have left the lists of queue `q`, and nothing else has changed but results. -/
structure Woken (s after : System) (q : Nat) (tasks : List Nat) : Prop where
  others : ∀ p, p ≠ q → after.queues p = s.queues p
  queue : after.queues q = { s.queues q with
    senders := (after.queues q).senders, receivers := (after.queues q).receivers }
  senders : ∀ u, u ∈ (after.queues q).senders ↔ u ∈ (s.queues q).senders ∧ u ∉ tasks
  receivers : ∀ u, u ∈ (after.queues q).receivers ↔ u ∈ (s.queues q).receivers ∧ u ∉ tasks
  requests : ∀ u, u ∉ tasks → after.requests u = s.requests u
  nextQueue : after.nextQueue = s.nextQueue
  messages : after.messages = s.messages
  bytes : after.bytes = s.bytes
  place : after.place = s.place
  nextName : after.nextName = s.nextName

theorem Woken.refl (s : System) (q : Nat) : Woken s s q [] :=
  ⟨fun _ _ => rfl, rfl, by simp, by simp, fun _ _ => rfl, rfl, rfl, rfl, rfl, rfl⟩

theorem Woken.complete (inv : s.Consistent pend) (res : Result)
    (mem : t ∈ (s.queues q).senders ∨ t ∈ (s.queues q).receivers) : Woken s (s.requestComplete t res) q [t] := by
  have home := (inv.waiters.sender_queue mem).2
  have here : (s.requestComplete t res).queues q = Waiters.without (s.queues q) t := by
    subst home
    exact update_self ..
  refine ⟨fun p ne => ?_, ?_, fun u => ?_, fun u => ?_, fun u out => ?_, rfl, rfl, rfl, rfl, rfl⟩
  · subst home
    exact update_of_ne ne ..
  · rw [here]
    rfl
  · rw [here, mem_singleton, and_comm]
    exact (inv.waiters.senders q).mem_erase_iff
  · rw [here, mem_singleton, and_comm]
    exact (inv.waiters.receivers q).mem_erase_iff
  · exact update_of_ne (fun eq => out (mem_singleton.mpr eq)) ..

theorem Woken.trans (one : Woken s mid q first) (two : Woken mid s' q rest) : Woken s s' q (first ++ rest) := by
  refine ⟨fun p ne => (two.others p ne).trans (one.others p ne), ?_, fun u => ?_, fun u => ?_, fun u out => ?_,
    two.nextQueue.trans one.nextQueue, two.messages.trans one.messages, two.bytes.trans one.bytes, two.place.trans one.place,
    two.nextName.trans one.nextName⟩
  · rw [two.queue, one.queue]
  · rw [two.senders, one.senders, mem_append]
    tauto
  · rw [two.receivers, one.receivers, mem_append]
    tauto
  · rw [mem_append, not_or] at out
    exact (two.requests u out.2).trans (one.requests u out.1)

theorem completeAll_spec (res : Result) (failed : res ≠ .ok) (ts : List Nat) : ∀ {s : System}, s.Consistent pend →
    ts.Nodup → (∀ t ∈ ts, t ∈ (s.queues q).senders ∨ t ∈ (s.queues q).receivers) →
    (completeAll res ts s).Consistent pend ∧ Woken s (completeAll res ts s) q ts := by
  induction ts with
  | nil => exact fun inv _ _ => ⟨inv, .refl _ q⟩
  | cons t rest ih =>
    intro s inv nodup mem
    obtain ⟨out, distinct⟩ := nodup_cons.mp nodup
    have waits := mem t (.head _)
    have woken := Woken.complete inv res waits
    obtain ⟨kept, others⟩ := ih (inv.requestComplete waits failed) distinct fun u later => by
      rw [woken.senders, woken.receivers, mem_singleton]
      have ne : u ≠ t := fun eq => out (eq ▸ later)
      exact (mem u (.tail _ later)).imp (⟨·, ne⟩) (⟨·, ne⟩)
    exact ⟨kept, woken.trans others⟩

theorem wakeSenders_spec (ts : List Nat) : ∀ {s : System}, s.Consistent (fun p u => p = q ∧ u ∈ ts) →
    ts.Nodup → (∀ t ∈ ts, t ∈ (s.queues q).senders) → (wakeSenders q ts s).Consistent settled ∧ (wakeSenders q ts s).place = s.place := by
  induction ts with
  | nil =>
    intro s inv _ _
    refine ⟨⟨inv.custody, inv.waiters.weaken fun p u _ pend => ?_⟩, rfl⟩
    cases pend.2
  | cons t rest ih =>
    intro s inv nodup mem
    obtain ⟨out, ne⟩ := nodup_cons.mp nodup
    have waits := mem t (.head _)
    rw [wakeSenders]
    split
    · have woken := Woken.complete inv .again (.inl waits)
      have completed : (s.requestComplete t .again).Consistent _ := inv.requestComplete (.inl waits) nofun
      obtain ⟨kept, pos⟩ := ih ⟨completed.custody, completed.waiters.weaken fun p u member pend => by
          obtain ⟨rfl, listed⟩ := pend
          rcases mem_cons.mp listed with rfl | later
          · rw [woken.senders] at member
            exact absurd (mem_singleton.mpr rfl) member.2
          · exact .inl ⟨rfl, later⟩⟩ ne fun u later => by
        rw [woken.senders, mem_singleton]
        exact ⟨mem u (.tail _ later), fun eq => out (eq ▸ later)⟩
      exact ⟨kept, pos.trans woken.place⟩
    next full =>
      refine ih ⟨inv.custody, inv.waiters.weaken fun p u member pend => ?_⟩ ne fun u later =>
        mem u (.tail _ later)
      obtain ⟨rfl, listed⟩ := pend
      rcases mem_cons.mp listed with rfl | later
      · exact .inr (Bool.not_eq_true _ ▸ full)
      · exact .inl ⟨rfl, later⟩

namespace System.Consistent

structure Sending (s : System) (t : Nat) (m : Message) : Prop where
  phase : (s.requests t).phase = .trying
  sends : (s.requests t).sends = true
  message : (s.requests t).message = some m
  size : m.size = (s.requests t).size
  kept : (s.queueOf t).removed = false

theorem messageEnqueue (inv : s.Consistent settled) (sending : Sending s t m)
    (unmatched : ∀ u ∈ (s.queueOf t).receivers, messageMatches m (s.requests u).type (s.requests u).flags = false) :
    (s.messageEnqueue t m).Consistent settled := by
  have unparked : (s.requests t).phase ≠ .parked := by simp [sending.phase]
  have live := inv.waiters.queued t (by simp [sending.phase])
  have ws := inv.waiters.setRequest (r := { s.requests t with message := none, phase := .done .ok }) unparked
    ⟨fun _ => rfl, fun _ => rfl⟩ (fun _ => live) (inv.waiters.copies t)
  have apart (u : Nat) (mem : u ∈ (s.queueOf t).receivers) : u ≠ t := by
    rintro rfl
    exact (inv.waiters.outside unparked _).2 mem
  constructor
  · change Custody name (fun u => (update s.requests t _ u).party)
      (fun p => (update s.queues (s.requests t).queue _ p).messages) _ s.nextName
    rw [parties_update, stores_update]
    exact inv.custody.store sending.message rfl (s.requests t).queue
  refine ws.replace live { s.queueOf t with
    messages := (s.queueOf t).messages ++ [m], count := (s.queueOf t).count + 1, bytes := (s.queueOf t).bytes + m.size }
    (ws.sender _) (fun u mem => ?_) (fun _ _ _ held => held) (ws.receiver _)
    (fun u mem x listed => ?_) (ws.senders _) (ws.receivers _) ?_ ?_ ?_ ?_ ?_
  · have full := (ws.blocked (s.requests t).queue u mem).resolve_left nofun
    exact .inr (fits_fuller full rfl (Nat.le_succ _) (Nat.le_add_right ..))
  · rcases mem_append.mp listed with old | new
    · exact ws.starved _ u mem x old
    · rw [mem_singleton.mp new, update_of_ne (apart u mem)]
      exact unmatched u mem
  · change (s.queueOf t).count + 1 = ((s.queueOf t).messages ++ [m]).length
    rw [length_append, length_singleton, show (s.queueOf t).count = _ from ws.count _]
    rfl
  · change (s.queueOf t).bytes + m.size = (((s.queueOf t).messages ++ [m]).map size).sum
    rw [map_append, sum_append, map_singleton, sum_singleton, show (s.queueOf t).bytes = _ from ws.size _]
    rfl
  · intro gone
    cases sending.kept.symm.trans gone
  · change s.messages + 1 + (s.queueOf t).count = s.messages + ((s.queueOf t).count + 1)
    omega
  · change s.bytes + m.size + (s.queueOf t).bytes = s.bytes + ((s.queueOf t).bytes + m.size)
    omega

theorem handOff (inv : s.Consistent pend) (sending : Sending s t m) (mem : u ∈ (s.queues q).receivers) :
    (s.handOff t u m).Consistent pend := by
  have waits := inv.waiters.receiver q u mem
  have unparked : (s.requests t).phase ≠ .parked := by simp [sending.phase]
  have differ : u ≠ t := by
    rintro rfl
    exact unparked waits.phase
  have empty : (s.requests u).message = none := by
    have ok := inv.waiters.request u
    unfold Request.Ok at ok
    rw [waits.phase] at ok
    rcases ok with ⟨sends, _⟩ | ⟨_, ⟨empty, _⟩ | ⟨_, wrong⟩⟩
    · cases sends.symm.trans waits.sends
    · exact empty
    · cases wrong.symm.trans waits.result
  have live := inv.waiters.queued t (by simp [sending.phase])
  have ws := inv.waiters.setRequest (r := { s.requests t with message := none, phase := .done .ok }) unparked
    ⟨fun _ => rfl, fun _ => rfl⟩ (fun _ => live) (inv.waiters.copies t)
  have ok : Request.Ok { s.requests u with message := some m, result := .ok } := by
    dsimp only [Request.Ok]
    rw [waits.phase]
    exact .inr ⟨waits.sends, .inr ⟨nofun, rfl⟩⟩
  constructor
  · change Custody name (fun v => (update (update s.requests t _) u _ v).party) (fun p => (update s.queues _ _ p).messages) _ s.nextName
    rw [parties_update, parties_update, stores_same]
    · exact inv.custody.pass sending.message rfl empty rfl waits.sends
    · rfl
  · exact ws.leave ok (fun _ => inv.waiters.queued u (by simp [waits.phase])) (inv.waiters.copies u)

/-- The receivers that do not match stay, those too small for the message are refused, and the first other gets it. -/
theorem offer (ts : List Nat) : ∀ {s : System}, s.Consistent settled → Sending s t m → ts.Nodup → (∀ u ∈ ts, u ∈ (s.queueOf t).receivers) →
    (∀ u ∈ (s.queueOf t).receivers, u ∉ ts → messageMatches m (s.requests u).type (s.requests u).flags = false) →
    (offer t m ts s).Consistent settled := by
  induction ts with
  | nil => exact fun inv sending _ _ unmatched => inv.messageEnqueue sending fun u mem => unmatched u mem nofun
  | cons u rest ih =>
    intro s inv sending nodup mem unmatched
    obtain ⟨absent, distinct⟩ := nodup_cons.mp nodup
    have waits := mem u (.head _)
    rw [System.offer]
    split
    · split
      · have woken := Woken.complete inv .e2big (.inr waits)
        have differ : t ≠ u := by
          rintro rfl
          have parked := (inv.waiters.receiver _ t waits).phase
          cases sending.phase.symm.trans parked
        have eq := woken.requests t (fun wrong => differ (mem_singleton.mp wrong))
        have queue : (s.requestComplete u .e2big).queueOf t = (s.requestComplete u .e2big).queues (s.requests t).queue := by
          rw [queueOf, eq]
        refine ih (inv.requestComplete (.inr waits) nofun) ?_ distinct (fun v later => ?_) fun v listed out => ?_
        · refine ⟨by rw [eq]; exact sending.phase, by rw [eq]; exact sending.sends, by rw [eq]; exact sending.message,
            by rw [eq]; exact sending.size, ?_⟩
          rw [queue, woken.queue]
          exact sending.kept
        · rw [queue, woken.receivers, mem_singleton]
          exact ⟨mem v (.tail _ later), fun wrong => absent (wrong ▸ later)⟩
        · rw [queue, woken.receivers, mem_singleton] at listed
          rw [woken.requests v (fun wrong => listed.2 (mem_singleton.mp wrong))]
          exact unmatched v listed.1 fun wrong => (mem_cons.mp wrong).elim listed.2 out
      · exact inv.handOff sending waits
    next ne =>
      refine ih inv sending distinct (fun v later => mem v (.tail _ later)) fun v listed out => ?_
      by_cases eq : v = u
      · subst eq
        exact Bool.not_eq_true _ ▸ ne
      · exact unmatched v listed fun wrong => (mem_cons.mp wrong).elim eq out

end System.Consistent
end BoarOS.Msg
