import BoarOS.Mqueue.Runs

namespace BoarOS.Mqueue
open Data Function List Mqueue.System Request

/-! # Every step keeps the invariant -/

variable {s s' : System} {stored : List Message} {t u : Nat} {m : Message} {r : Request}

namespace System.Consistent

theorem of_lists (core : s'.Core kept) (snd : s'.senders = ss) (rcv : s'.receivers = rs) (reqs : s'.requests = f)
    (ok : ∀ u, (f u).Ok (u ∈ ss) (u ∈ rs)) (distinct : ss.Nodup) (apart : rs.Nodup) (bounded : s'.count ≤ s'.maxmsg)
    (starved : rs ≠ [] → kept = []) (full : ss ≠ [] → s'.maxmsg ≤ s'.count) : s'.Consistent kept := by
  subst snd rcv reqs
  exact ⟨core, ok, distinct, apart, bounded, starved, full⟩

section
variable (inv : s.Consistent stored)
include inv

theorem ok_at (pos : (s.requests t).phase = ph) : Ok { s.requests t with phase := ph } (t ∈ s.senders) (t ∈ s.receivers) := by
  have ok := inv.request t
  rw [← pos]
  exact ok

theorem not_full (room : s.count < s.maxmsg) : s.senders = [] := by
  by_contra waiting
  exact absurd (inv.full waiting) (not_le.mpr room)

theorem messagePublish (pos : (s.requests t).phase = .sending)
    (mine : (s.requests t).message = some m) (sends : (s.requests t).sends = true) (room : s.count < s.maxmsg)
    (provided : s.receivers ≠ [] ∨ (s.requests t).priority ≠ none ∨ s.priorities.find m.priority ≠ none) :
    ∃ s' stored, s.messagePublish t = some s' ∧ (s'.setPhase t (.done .ok)).Consistent stored := by
  obtain ⟨_, _, out⟩ := inv.ok_at pos
  have unsent := inv.not_full room
  unfold System.messagePublish
  cases waiting : s.receivers with
  | nil =>
    obtain ⟨s', _, enqueued, core, senders, receivers, maxmsg, reqs, _⟩ := inv.core.messageEnqueue mine
      sends (provided.resolve_left (fun wrong => wrong waiting)).symm
    refine ⟨s', _, enqueued, .of_lists (core.setPhase _) senders receivers rfl (fun v => ?_) inv.senders inv.receivers
      ?_ (fun some_ => absurd waiting some_) fun some_ => absurd unsent some_⟩
    · change (update s'.requests t { s'.requests t with phase := .done .ok } v).Ok (v ∈ s.senders) (v ∈ s.receivers)
      rw [reqs]
      by_cases eq : v = t
      · subst eq
        rw [update_self, update_self]
        exact ⟨fun _ => rfl, out⟩
      · rw [update_of_ne eq, update_of_ne eq]
        exact inv.request v
    · change s'.count ≤ s'.maxmsg
      rw [core.count, maxmsg, length_append, ← inv.core.count]
      exact room
  | cons receiver rest =>
    have mem : receiver ∈ s.receivers := by rw [waiting]; exact .head _
    obtain ⟨parked, gets, empty, _⟩ := inv.waiting_receiver mem
    have nothing := inv.starved (by simp [waiting])
    subst nothing
    have differ : receiver ≠ t := by
      rintro rfl
      rw [mine] at empty
      cases empty
    dsimp only
    rw [mine]
    have core := inv.core.handOff mine sends empty gets
    -- the sender has given its message away, and the receiver is in no list any more
    have given : ∀ u, (update s.requests t { s.requests t with message := none, phase := .done .ok } u).Ok
        (u ∈ s.senders) (u ∈ s.receivers) :=
      ok_update inv.request (fun _ _ => Iff.rfl) (fun _ _ => Iff.rfl) ⟨fun _ => rfl, out⟩
    refine ⟨_, [], rfl, .of_lists (core.setPhase _) rfl rfl ?_ (ok_update (r := { s.requests receiver with
        message := some m, result := .ok }) given (fun u ne => mem_erase_other ne) (fun u ne => mem_erase_other ne) ?_)
      (inv.senders.erase receiver) (inv.receivers.erase receiver) inv.bounded (fun _ => rfl)
      fun some_ => absurd (congrArg (·.erase receiver) unsent) some_⟩
    · simp only [System.setPhase, System.setRequest, System.handOff, System.requestComplete, System.requestRemove,
        update_self, update_of_ne differ.symm]
      rw [update_idem, update_comm differ, update_idem]
    dsimp only [Ok]
    rw [parked]
    exact .inr (.inr ⟨inv.senders.not_mem_erase, inv.receivers.not_mem_erase, rfl, .inr ⟨gets, nofun⟩⟩)

theorem sendTry (nonblock expired signalled : Bool) (prio : Nat) : Safe (s.step (.sendTry t nonblock expired signalled prio)) := by
  dsimp only [step]
  split
  · trivial
  rename_i ok
  have pos := not_not.mp ok
  obtain ⟨sends, msg, out⟩ := inv.ok_at pos
  obtain ⟨m, mine⟩ := Option.ne_none_iff_exists'.mp msg
  have mine : (s.requests t).message = some m := mine
  dsimp only [System.sendTry]
  rw [mine]
  dsimp only
  split
  next room =>
    split
    · exact ⟨stored, inv.setPhase .allocating ⟨sends, msg, out⟩⟩
    rename_i prep
    have provided : s.receivers ≠ [] ∨ (s.requests t).priority ≠ none ∨ s.priorities.find m.priority ≠ none := by tauto
    obtain ⟨_, stored, pub, kept⟩ := inv.messagePublish pos mine sends room provided
    rw [pub]
    exact ⟨stored, kept⟩
  rename_i crowded
  split
  · exact ⟨stored, inv.setPhase (.done .eagain) ⟨fun ends => (by cases sends.symm.trans (ends.resolve_right nofun)), out⟩⟩
  split
  · exact ⟨stored, inv.setPhase .allocating ⟨sends, msg, out⟩⟩
  next spare =>
    exact ⟨stored, inv.requestPrepare expired signalled prio out (.inl ⟨sends, msg, spare, not_lt.mp crowded⟩)⟩

theorem receiveTry (nonblock expired signalled : Bool) (prio : Nat) :
    System.Safe (s.step (.receiveTry t nonblock expired signalled prio)) := by
  dsimp only [System.step]
  split
  · trivial
  rename_i ok
  have pos := not_not.mp ok
  obtain ⟨gets, empty, out⟩ := inv.ok_at pos
  have gets : (s.requests t).sends = false := gets
  have empty : (s.requests t).message = none := empty
  unfold System.receiveTry
  split
  next filled =>
    have wait : stored ≠ [] := by
      rintro rfl
      exact filled inv.core.count
    have idle : s.receivers = [] := by
      by_contra some_
      exact wait (inv.starved some_)
    obtain ⟨taken, rest, got, priority, dequeued, core, _, senders, receivers, maxmsg, reqs, _⟩ := inv.core.messageDequeue wait empty gets
    have le := inv.bounded
    have pre := inv.core.count
    rw [dequeued]
    rw [Option.bind_some, senders]
    have took : ∀ u, (update s.requests t
        { s.requests t with message := some got, priority := priority, phase := .copying } u).Ok (u ∈ s.senders)
        (u ∈ s.receivers) :=
      ok_update inv.request (fun _ _ => Iff.rfl) (fun _ _ => Iff.rfl) ⟨gets, by simp, out⟩
    cases blocked : s.senders with
    | nil =>
      refine ⟨rest, .of_lists (core.setPhase _) senders receivers ?_ took inv.senders inv.receivers ?_
        (fun some_ => absurd idle some_) fun some_ => absurd blocked some_⟩
      · simp only [System.setPhase, System.setRequest, reqs, update_self, update_idem]
      change taken.count ≤ taken.maxmsg
      rw [core.count, maxmsg]
      omega
    | cons sender others =>
      have mem : sender ∈ s.senders := by rw [blocked]; exact .head _
      obtain ⟨parked, sends, message, spare, _⟩ := inv.waiting_sender mem
      have differ : sender ≠ t := by
        rintro rfl
        rw [sends] at gets
        cases gets
      obtain ⟨m, mine⟩ := Option.ne_none_iff_exists'.mp message
      have there : taken.requests sender = s.requests sender := by rw [reqs, update_of_ne differ]
      obtain ⟨filled, bucket, enqueued, drained, sendersStill, receiversStill, maxmsgStill, requestsAfter, _⟩ :=
        core.messageEnqueue (t := sender) (m := m) (by rwa [there]) (by rwa [there]) (.inr (by rwa [there]))
      dsimp only
      rw [enqueued]
      have crowd := inv.full (by simp [blocked])
      have n : filled.count = filled.maxmsg := by
        rw [drained.count, maxmsgStill, maxmsg, length_append, length_singleton]
        omega
      have lists : filled.senders = s.senders ∧ filled.receivers = s.receivers :=
        ⟨sendersStill.trans senders, receiversStill.trans receivers⟩
      refine ⟨rest ++ [m], .of_lists (drained.requestComplete.setPhase _) (congrArg (·.erase sender) lists.1)
        (congrArg (·.erase sender) lists.2) ?_ (ok_update (r := { s.requests sender with
          message := none, priority := bucket, result := .ok }) took (fun u ne => mem_erase_other ne)
          (fun u ne => mem_erase_other ne) ?_) (inv.senders.erase sender) (inv.receivers.erase sender) n.le
        (fun some_ => absurd (by rw [idle]; rfl) some_) fun _ => n.ge⟩
      · simp only [System.setPhase, System.setRequest, System.requestComplete, System.requestRemove, requestsAfter, reqs,
          update_self, update_of_ne differ, update_of_ne differ.symm]
        rw [update_idem, update_comm differ, update_idem]
      dsimp only [Ok]
      rw [parked]
      exact .inr (.inr ⟨inv.senders.not_mem_erase, inv.receivers.not_mem_erase, rfl, .inl ⟨sends, rfl⟩⟩)
  next none_ =>
    have nothing : stored = [] := by
      have zero := inv.core.count
      rw [not_not.mp none_] at zero
      exact length_eq_zero_iff.mp zero.symm
    split
    · exact ⟨stored, inv.setPhase (.done .eagain) ⟨fun _ => empty, out⟩⟩
    · exact ⟨stored, inv.requestPrepare expired signalled prio out (.inr ⟨gets, empty, nothing⟩)⟩

theorem requestWait (pos : (s.requests t).phase = .parked) (why : WaitReason) : (s.requestWait t why).Consistent stored := by
  have ok := inv.ok_at pos
  refine inv.leave (r := _) (inv.core.requestRemove.setPhase _) rfl rfl rfl rfl rfl ?_
  rcases ok with ⟨mem, _, sends, msg, _⟩ | ⟨_, mem, gets, empty⟩ | ⟨out, apart, res, kind⟩
  · have sends : (s.requests t).sends = true := sends
    have failed : s.waitResult t why ≠ .ok := by
      rw [waitResult, if_pos (.inl mem)]
      split <;> nofun
    rw [if_neg (by simp [sends])]
    exact ⟨fun ends => (by cases sends.symm.trans (ends.resolve_right failed)), nofun, nofun⟩
  · have failed : s.waitResult t why ≠ .ok := by
      rw [waitResult, if_pos (.inr mem)]
      split <;> nofun
    rw [if_neg fun wrong => failed wrong.2]
    exact ⟨fun _ => empty, nofun, nofun⟩
  have succeeds : s.waitResult t why = .ok := by
    rw [waitResult, if_neg (not_or.mpr ⟨out, apart⟩)]
    exact res
  rw [succeeds]
  rcases kind with ⟨sends, empty⟩ | ⟨gets, msg⟩
  · have sends : (s.requests t).sends = true := sends
    rw [if_neg (by simp [sends])]
    exact ⟨fun _ => empty, nofun, nofun⟩
  have gets : (s.requests t).sends = false := gets
  rw [if_pos ⟨gets, rfl⟩]
  exact ⟨gets, msg, nofun, nofun⟩

theorem requestRelease (fate : Fate) (gone : fate.place = .gone fate)
    (marks : (s.requests t).message ≠ none → fate.accepted = !(s.requests t).sends) : ((s.requestRemove t).requestRelease t fate).Consistent stored := by
  have core := (inv.core.requestRemove (t := t)).requestRelease (t := t) gone marks
  have blank : blank.Ok False False := ⟨rfl, nofun, nofun⟩
  unfold System.requestRelease at core ⊢
  cases mine : ((s.requestRemove t).requests t).message with
  | none | some =>
    rw [mine] at core
    exact inv.leave core rfl rfl rfl rfl rfl blank

end

theorem requestRemove_outside (out : t ∉ s.senders ∧ t ∉ s.receivers) : s.requestRemove t = s := by
  unfold requestRemove
  rw [erase_of_not_mem out.1, erase_of_not_mem out.2]

section
variable (inv : s.Consistent stored)
include inv

theorem ends (faults : Bool) : Safe (s.step (.copy t faults)) ∧ Safe (s.step (.finish t)) ∧ Safe (s.step (.abort t)) := by
  refine ⟨?_, ?_, ?_⟩ <;> unfold step <;> dsimp only
  · split
    · trivial
    rename_i ok
    obtain ⟨gets, _, out⟩ := inv.ok_at (not_not.mp ok)
    have gets : (s.requests t).sends = false := gets
    rw [if_neg (not_or.mpr out)]
    have kept := inv.requestRelease (t := t) (if faults then .faulted else .delivered) (by cases faults <;> rfl) fun _ => by
      rw [gets]
      cases faults <;> rfl
    rw [requestRemove_outside out] at kept
    exact ⟨stored, kept⟩
  · split
    next res pos =>
      obtain ⟨none_, out⟩ := inv.ok_at pos
      rw [if_neg (not_or.mpr out)]
      have kept := inv.requestRelease (t := t) .rejected rfl fun some_ => by
        rw [Bool.eq_true_of_not_eq_false fun gets => some_ (none_ (.inl gets))]
        rfl
      rw [requestRemove_outside out] at kept
      exact ⟨stored, kept⟩
    · trivial
  · split
    · trivial
    · refine ⟨stored, inv.requestRelease _ (by split <;> rfl) fun _ => ?_⟩
      cases (s.requests t).sends <;> rfl

theorem send (prio size : Nat) : Safe (s.step (.send t prio size)) := by
  dsimp only [step]
  split
  · trivial
  rename_i ok
  obtain ⟨empty, out⟩ := inv.ok_at (not_not.mp (not_or.mp ok).1)
  exact ⟨stored, { inv with
    core := inv.core.begin (m := ⟨s.nextName, prio, size⟩) empty rfl rfl rfl rfl
    request := ok_update inv.request (fun _ _ => Iff.rfl) (fun _ _ => Iff.rfl) ⟨rfl, nofun, out⟩ }⟩

theorem receive (size : Nat) : Safe (s.step (.receive t size)) := by
  dsimp only [step]
  split
  · trivial
  rename_i ok
  obtain ⟨empty, out⟩ := inv.ok_at (not_not.mp (not_or.mp ok).1)
  exact ⟨stored, { inv with
    core := inv.core.setRequest empty.symm (fun wrong => absurd rfl wrong) nofun
    request := ok_update inv.request (fun _ _ => Iff.rfl) (fun _ _ => Iff.rfl) ⟨rfl, rfl, out⟩ }⟩

theorem allocate (succeeds : Bool) : Safe (s.step (.allocate t succeeds)) := by
  dsimp only [step]
  split
  next m pos mine =>
    obtain ⟨sends, msg, out⟩ := inv.ok_at pos
    split
    · have core := inv.core
      have older (node : KeyNode) (mem : node ∈ s.priorities.flatten) :
          update s.buckets s.nextBucket [] node.owner = s.buckets node.owner :=
        update_of_ne (ne_of_lt (core.tree.below node mem)) ..
      have spares := core.spares.setBucket s.nextBucket [] fun u node spare =>
        ne_of_lt (core.spares.empty u node spare).1
      refine ⟨stored, { inv with
        core := {
          tree := { core.tree with
            content := fun node mem => (older node mem).trans (core.tree.content node mem)
            nonempty := fun node mem drained =>
              core.tree.nonempty node mem ((older node mem).symm.trans drained)
            below := fun node mem => Nat.lt_succ_of_lt (core.tree.below node mem) }
          spares := spares.give rfl (update_self ..) (Nat.lt_succ_self _) (Nat.le_succ _) (fun u node spare eq => ?_) fun x _ own => ?_
          fates := core.fates.frame rfl fun _ => rfl
          count := core.count
          bytes := core.bytes
          history := core.history
          logged := core.logged }
        request := ok_update inv.request (fun _ _ => Iff.rfl) (fun _ _ => Iff.rfl) ⟨sends, msg, out⟩ }⟩
      · exact absurd eq (ne_of_lt (core.spares.empty u node spare).1)
      have own : (s.requests t).message = some x := own
      rw [mine] at own
      cases own
      rfl
    · exact ⟨stored, inv.setPhase (.done .enomem) ⟨fun ends => (by cases sends.symm.trans (ends.resolve_right nofun)), out⟩⟩
  · trivial

theorem wait (why : WaitReason) : Safe (s.step (.wait t why)) := by
  dsimp only [step]
  split
  · trivial
  next ok =>
    exact ⟨stored, inv.requestWait (not_not.mp ok) why⟩

theorem safe (step : Step) : Safe (s.step step) := by
  cases step with
  | send t prio size => exact inv.send prio size
  | sendTry t nonblock expired signalled waitPriority => exact inv.sendTry nonblock expired signalled waitPriority
  | allocate t succeeds => exact inv.allocate succeeds
  | receive t size => exact inv.receive size
  | receiveTry t nonblock expired signalled waitPriority =>
    exact inv.receiveTry nonblock expired signalled waitPriority
  | wait t why => exact inv.wait why
  | copy t faults => exact (inv.ends faults).1
  | finish t => exact (inv.ends false).2.1
  | abort t => exact (inv.ends false).2.2

end
end System.Consistent

theorem System.initial_consistent (maxmsg msgsize : Nat) : (initial maxmsg msgsize).Consistent [] where
  core := {
    tree := ⟨.nil, nofun, nofun, nofun, nofun, nofun⟩
    spares := ⟨nofun, nofun, nofun⟩
    fates := ⟨nofun, nofun, nofun, nofun, nodup_nil, fun _ _ => rfl⟩
    count := rfl
    bytes := rfl
    history := .nil
    logged := ⟨by simp [initial, Fate.accepted, Fate.taken], by simp [initial, Fate.taken]⟩ }
  request _ := ⟨rfl, nofun, nofun⟩
  senders := nodup_nil
  receivers := nodup_nil
  bounded := Nat.zero_le _
  starved _ := rfl
  full wrong := absurd rfl wrong

theorem System.Reachable.consistent {maxmsg msgsize : Nat} (run : Reachable maxmsg msgsize s) : ∃ stored, s.Consistent stored := by
  induction run with
  | initial => exact ⟨[], initial_consistent maxmsg msgsize⟩
  | @step s s' step _ ran kept =>
    obtain ⟨_, inv⟩ := kept
    have safe := inv.safe step
    rw [ran] at safe
    exact safe

end BoarOS.Mqueue
