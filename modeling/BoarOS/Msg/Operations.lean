import BoarOS.Msg.Invariant

namespace BoarOS.Msg
open Data Function List

/-! # The operations on queues and requests -/

variable {qs : Nat → Queue} {nextQueue : Nat} {reqs : Nat → Request} {messages bytes : Nat}
  {pend next : Nat → Nat → Prop} {t u q : Nat} {r : Request} {queue : Queue} {m : Message} {res : Result}

theorem fits_fuller (full : fits pre size = false) (lim : s'.limit = pre.limit)
    (n : pre.count ≤ s'.count) (bytes : pre.bytes ≤ s'.bytes) : fits s' size = false := by
  unfold fits at *
  simp only [Bool.and_eq_false_iff, decide_eq_false_iff_not] at *
  rw [lim]
  omega

namespace Waiters

theorem weaken (ws : Waiters qs nextQueue reqs messages bytes pend)
    (blocked : ∀ q, ∀ t ∈ (qs q).senders, pend q t → next q t ∨ fits (qs q) (reqs t).size = false) :
    Waiters qs nextQueue reqs messages bytes next :=
  { ws with blocked := fun q t mem => (ws.blocked q t mem).elim (blocked q t mem) .inr }

theorem replace (ws : Waiters qs nextQueue reqs messages bytes pend) (live : q < nextQueue) (queue : Queue)
    (sender : ∀ t ∈ queue.senders, (reqs t).Waits q true) (blocked : ∀ t ∈ queue.senders, next q t ∨ fits queue (reqs t).size = false)
    (rest : ∀ p t, p ≠ q → pend p t → next p t) (receiver : ∀ t ∈ queue.receivers, (reqs t).Waits q false)
    (starved : ∀ t ∈ queue.receivers, ∀ m ∈ queue.messages, messageMatches m (reqs t).type (reqs t).flags = false)
    (senders : queue.senders.Nodup) (receivers : queue.receivers.Nodup) (n : queue.count = queue.messages.length)
    (size : queue.bytes = (queue.messages.map Message.size).sum)
    (gone : queue.removed = true → queue.messages = [] ∧ queue.senders = [] ∧ queue.receivers = [])
    (messagesAfter : total + (qs q).count = messages + queue.count) (bytesAfter : totalBytes + (qs q).bytes = bytes + queue.bytes) :
    Waiters (update qs q queue) nextQueue reqs total totalBytes next := by
  have each {motive : Nat → Queue → Prop} (here : motive q queue) (there : ∀ p, p ≠ q → motive p (qs p)) (p : Nat) :
      motive p (update qs q queue p) := by
    by_cases eq : p = q
    · subst eq
      rw [update_self]
      exact here
    · rw [update_of_ne eq]
      exact there p eq
  refine ⟨ws.request, ws.queued, ws.copies, ?_, ?_, ?_, ?_, ?_, ?_, ?_, ?_, ?_, ?_, ?_, ?_⟩
  · exact each (motive := fun p queue => ∀ t ∈ queue.senders, (reqs t).Waits p true) sender fun p _ => ws.sender p
  · exact each (motive := fun p queue => ∀ t ∈ queue.senders, next p t ∨ fits queue (reqs t).size = false) blocked
      fun p ne t mem => (ws.blocked p t mem).imp_left (rest p t ne)
  · exact each (motive := fun p queue => ∀ t ∈ queue.receivers, (reqs t).Waits p false) receiver fun p _ => ws.receiver p
  · exact each (motive := fun _ queue => ∀ t ∈ queue.receivers, ∀ m ∈ queue.messages,
      messageMatches m (reqs t).type (reqs t).flags = false) starved fun p _ => ws.starved p
  · exact each (motive := fun _ queue => queue.senders.Nodup) senders fun p _ => ws.senders p
  · exact each (motive := fun _ queue => queue.receivers.Nodup) receivers fun p _ => ws.receivers p
  · exact each (motive := fun _ queue => queue.count = queue.messages.length) n fun p _ => ws.count p
  · exact each (motive := fun _ queue => queue.bytes = (queue.messages.map Message.size).sum) size fun p _ => ws.size p
  · exact each (motive := fun _ queue => queue.removed = true → queue.messages = [] ∧ queue.senders = [] ∧
      queue.receivers = []) gone fun p _ => ws.removed p
  · intro p high
    rw [update_of_ne (by omega)]
    exact ws.unborn p high
  · have moved := @sum_update qs nextQueue q queue Queue.count live
    have pre := ws.messages
    omega
  · have moved := @sum_update qs nextQueue q queue Queue.bytes live
    have pre := ws.bytes
    omega

theorem completed_ok (ok : r.Ok) (waits : r.Waits q sends) (failed : res ≠ .ok) : Request.Ok { r with result := res } := by
  unfold Request.Ok at ok ⊢
  rw [waits.phase] at ok
  dsimp only at ok ⊢
  rw [waits.phase]
  dsimp only
  rcases ok with ⟨sender, mine, _⟩ | ⟨gets, ⟨empty, _⟩ | ⟨_, wrong⟩⟩
  · exact .inl ⟨sender, mine, failed⟩
  · exact .inr ⟨gets, .inl ⟨empty, failed⟩⟩
  · cases waits.result.symm.trans wrong

theorem complete (ws : Waiters qs nextQueue reqs messages bytes pend) (mem : t ∈ (qs q).senders ∨ t ∈ (qs q).receivers)
    (failed : res ≠ .ok) : Waiters (update qs (reqs t).queue (without (qs (reqs t).queue) t)) nextQueue
      (update reqs t { reqs t with result := res }) messages bytes pend := by
  refine ws.leave ?_ (ws.queued t) (ws.copies t)
  rcases mem with mem | mem
  · exact completed_ok (ws.request t) (ws.sender q t mem) failed
  · exact completed_ok (ws.request t) (ws.receiver q t mem) failed

theorem join (ws : Waiters qs nextQueue reqs messages bytes pend) (pos : (reqs t).phase = .trying)
    (kept : (qs (reqs t).queue).removed = false)
    (waits : (reqs t).sends = true ∧ fits (qs (reqs t).queue) (reqs t).size = false ∨
      (reqs t).sends = false ∧ ∀ m ∈ (qs (reqs t).queue).messages, messageMatches m (reqs t).type (reqs t).flags = false) :
    Waiters (update qs (reqs t).queue (if (reqs t).sends then
          { qs (reqs t).queue with senders := (qs (reqs t).queue).senders ++ [t] }
        else { qs (reqs t).queue with receivers := (qs (reqs t).queue).receivers ++ [t] })) nextQueue
      (update reqs t { reqs t with phase := .parked, result := .again }) messages bytes pend := by
  have unparked : (reqs t).phase ≠ .parked := by simp [pos]
  have live := ws.queued t (by simp [pos])
  have out := ws.outside unparked
  have ok : Request.Ok { reqs t with phase := .parked, result := .again } := by
    have trying := ws.request t
    unfold Request.Ok at trying ⊢
    rw [pos] at trying
    rcases trying with ⟨sends, mine⟩ | ⟨gets, empty⟩
    · exact .inl ⟨sends, mine, nofun⟩
    · exact .inr ⟨gets, .inl ⟨empty, nofun⟩⟩
  have moved := ws.setRequest (r := { reqs t with phase := .parked, result := .again }) unparked ok (fun _ => live) (ws.copies t)
  have self : update reqs t { reqs t with phase := .parked, result := .again } t =
      { reqs t with phase := .parked, result := .again } := update_self ..
  have unremoved {P : Prop} (gone : (qs (reqs t).queue).removed = true) : P := by
    rw [kept] at gone
    cases gone
  have nodup {wait : List Nat} (nodup : wait.Nodup) (out : t ∉ wait) : (wait ++ [t]).Nodup :=
    nodup.append (nodup_singleton t) fun v old new => out (mem_singleton.mp new ▸ old)
  rcases waits with ⟨sends, full⟩ | ⟨gets, unmatched⟩
  · rw [if_pos sends]
    refine moved.replace live { qs (reqs t).queue with senders := (qs (reqs t).queue).senders ++ [t] }
      (fun u mem => ?_) (fun u mem => ?_) (fun _ _ _ held => held) (moved.receiver _)
      (moved.starved _) (nodup (moved.senders _) (out _).1) (moved.receivers _) (moved.count _) (moved.size _) unremoved rfl rfl
    · rcases mem_append.mp mem with old | new
      · exact moved.sender _ u old
      · rw [mem_singleton.mp new, self]
        exact ⟨rfl, sends, rfl, rfl⟩
    rcases mem_append.mp mem with old | new
    · exact moved.blocked _ u old
    rw [mem_singleton.mp new, self]
    exact .inr full
  rw [if_neg (by simp [gets])]
  refine moved.replace live { qs (reqs t).queue with receivers := (qs (reqs t).queue).receivers ++ [t] }
    (moved.sender _) (moved.blocked _) (fun _ _ _ held => held) (fun u mem => ?_)
    (fun u mem => ?_) (moved.senders _) (nodup (moved.receivers _) (out _).2) (moved.count _) (moved.size _) unremoved
    rfl rfl
  · rcases mem_append.mp mem with old | new
    · exact moved.receiver _ u old
    · rw [mem_singleton.mp new, self]
      exact ⟨rfl, gets, rfl, rfl⟩
  rcases mem_append.mp mem with old | new
  · exact moved.starved _ u old
  rw [mem_singleton.mp new, self]
  exact unmatched

end Waiters
end BoarOS.Msg
