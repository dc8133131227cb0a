import BoarOS.Mqueue.Steps

namespace BoarOS.Mqueue
open Function Option Mqueue.System
open Data

/-! # The queue is a priority queue with one owner for each message -/

variable {s s' : System} {stored : List Message} {t u : Nat} {m : Message} {step : Step}

/-- Where a step can move a message. What was delivered, faulted, aborted or rejected stays so. -/
def Fate.Moves (step : Step) : Fate → Fate → Prop
  | .unborn, .outgoing _ => True
  | .outgoing _, .stored => True
  | .outgoing _, .held _ => True
  | .outgoing t, .rejected => step = .finish t ∨ step = .abort t
  | .stored, .held _ => True
  | .held t, .delivered => step = .copy t false
  | .held t, .faulted => step = .copy t true
  | .held t, .aborted => step = .abort t
  | _, _ => False

def Steady (step : Step) (before after : Nat → Fate) : Prop :=
  ∀ n, after n = before n ∨ Fate.Moves step (before n) (after n)

theorem Steady.refl (fate : Nat → Fate) : Steady step fate fate := fun _ => .inl rfl

theorem Steady.update_other (steady : Steady step pre mid)
    (moves : Fate.Moves step (pre n) pos) : Steady step pre (Function.update mid n pos) := by
  intro k
  by_cases eq : k = n
  · subst eq
    rw [update_self]
    exact .inr moves
  · rw [update_of_ne eq]
    exact steady k

theorem Steady.update (moves : Fate.Moves step (pre n) pos) : Steady step pre (Function.update pre n pos) :=
  (Steady.refl pre).update_other moves

namespace System

theorem requestPrepare_fate (expired signalled : Bool) (prio : Nat) : (s.requestPrepare t expired signalled prio).fate = s.fate := by
  unfold requestPrepare
  split
  · rfl
  split
  · rfl
  dsimp only
  split <;> rfl

theorem Consistent.sendTry_steady (inv : s.Consistent stored) (pos : (s.requests t).phase = .sending)
    (ran : s.sendTry t nonblock expired signalled prio = some s') : Steady step s.fate s'.fate := by
  obtain ⟨sends, msg, _⟩ := inv.ok_at pos
  obtain ⟨m, mine⟩ := ne_none_iff_exists'.mp msg
  have mine : (s.requests t).message = some m := mine
  have sends : (s.requests t).sends = true := sends
  have outgoing : s.fate m.name = .outgoing t := by
    rw [inv.core.fates.holds t m mine, sends]
    rfl
  dsimp only [System.sendTry] at ran
  rw [mine] at ran
  dsimp only at ran
  split at ran
  · split at ran
    · cases ran
      exact .refl _
    next prep =>
      obtain ⟨pub, publishes, rfl⟩ := map_eq_some_iff.mp ran
      change Steady step s.fate pub.fate
      unfold System.messagePublish at publishes
      cases waiting : s.receivers with
      | nil =>
        rw [waiting] at publishes
        obtain ⟨_, _, got, _, _, _, _, _, fate⟩ := inv.core.messageEnqueue mine sends (by tauto)
        rw [got] at publishes
        cases publishes
        rw [fate]
        exact .update (by rw [outgoing]; trivial)
      | cons receiver rest =>
        rw [waiting, mine] at publishes
        cases publishes
        exact .update (by rw [outgoing]; trivial)
  · split at ran
    · cases ran
      exact .refl _
    · split at ran
      · cases ran
        exact .refl _
      · cases ran
        rw [requestPrepare_fate]
        exact .refl _

theorem Consistent.receiveTry_steady (inv : s.Consistent stored) (pos : (s.requests t).phase = .receiving)
    (ran : s.receiveTry t nonblock expired signalled waitPriority = some s') : Steady step s.fate s'.fate := by
  obtain ⟨gets, empty, _⟩ := inv.ok_at pos
  have gets : (s.requests t).sends = false := gets
  unfold System.receiveTry at ran
  split at ran
  next filled =>
    have wait : stored ≠ [] := by
      rintro rfl
      exact filled inv.core.count
    obtain ⟨taken, _, got, _, dequeued, core, _, senders, _, _, reqs, mem, fate⟩ := inv.core.messageDequeue wait empty gets
    have took : Steady step s.fate taken.fate := by
      rw [fate]
      exact .update (by rw [inv.core.fates.storedIn got mem]; trivial)
    rw [dequeued] at ran
    rw [bind_some, senders] at ran
    cases blocked : s.senders with
    | nil =>
      rw [blocked] at ran
      cases ran
      exact took
    | cons sender others =>
      rw [blocked] at ran
      obtain ⟨_, sends, msg, spare, _⟩ := inv.waiting_sender (t := sender) (by
        rw [blocked]
        exact List.mem_cons_self)
      have differ : sender ≠ t := by
        rintro rfl
        rw [sends] at gets
        cases gets
      obtain ⟨m, mine⟩ := ne_none_iff_exists'.mp msg
      have there : taken.requests sender = s.requests sender := by rw [reqs, update_of_ne differ]
      obtain ⟨filled, _, enqueued, _, _, _, _, _, fateAfter⟩ :=
        core.messageEnqueue (t := sender) (m := m) (by rwa [there]) (by rwa [there]) (.inr (by rwa [there]))
      dsimp only at ran
      rw [enqueued] at ran
      cases ran
      change Steady step s.fate filled.fate
      rw [fateAfter]
      refine took.update_other ?_
      rw [inv.core.fates.holds sender m mine, sends]
      trivial
  · split at ran
    · cases ran
      exact .refl _
    · cases ran
      rw [requestPrepare_fate]
      exact .refl _

theorem Consistent.requestRelease_steady (inv : s.Consistent stored) {fate : Fate}
    (gets : (s.requests t).sends = false → (s.requests t).message ≠ none → Fate.Moves step (.held t) fate)
    (sends : (s.requests t).sends = true → (s.requests t).message ≠ none → Fate.Moves step (.outgoing t) fate) :
    Steady step s.fate (s.requestRelease t fate).fate := by
  unfold System.requestRelease
  cases mine : (s.requests t).message with
  | none => exact .refl _
  | some m =>
    refine Steady.update (n := m.name) ?_
    rw [inv.core.fates.holds t m mine]
    have some_ : (s.requests t).message ≠ none := by simp [mine]
    cases sender : (s.requests t).sends with
    | true => exact sends sender some_
    | false => exact gets sender some_

theorem requestRemove_release_fate (fate : Fate) : ((s.requestRemove t).requestRelease t fate).fate = (s.requestRelease t fate).fate := by
  have eq : ((s.requestRemove t).requests t).message = (s.requests t).message := rfl
  unfold requestRelease
  rw [eq]
  cases (s.requests t).message <;> rfl

/-- A message is lost only with the receiver that has it: by an abort or by a copy that faults. -/
theorem Consistent.steady (inv : s.Consistent stored) (ran : s.step step = some (some s')) : Steady step s.fate s'.fate := by
  cases step with
  | send t prio size =>
    dsimp only [step] at ran
    split at ran
    · cases ran
    cases ran
    refine Steady.update (n := s.nextName) ?_
    rw [inv.core.fates.fresh s.nextName le_rfl]
    trivial
  | sendTry t nonblock expired signalled waitPriority =>
    dsimp only [step] at ran
    split at ran
    · cases ran
    next ok =>
      exact inv.sendTry_steady (not_not.mp ok) (some.inj ran)
  | allocate t succeeds =>
    dsimp only [step] at ran
    split at ran
    · split at ran <;> cases ran <;> exact .refl _
    · cases ran
  | receive | wait =>
    dsimp only [step] at ran
    split at ran <;> cases ran
    exact .refl _
  | receiveTry t nonblock expired signalled waitPriority =>
    dsimp only [step] at ran
    split at ran
    · cases ran
    next ok =>
      exact inv.receiveTry_steady (not_not.mp ok) (some.inj ran)
  | copy t faults =>
    dsimp only [step] at ran
    split at ran
    · cases ran
    rename_i ok
    obtain ⟨gets, _, out⟩ := inv.ok_at (not_not.mp ok)
    rw [if_neg (not_or.mpr out)] at ran
    cases ran
    refine inv.requestRelease_steady (fun _ _ => ?_) fun sends => ?_
    · cases faults <;> rfl
    · cases sends.symm.trans gets
  | finish t =>
    dsimp only [step] at ran
    split at ran
    next res pos =>
      obtain ⟨none_, out⟩ := inv.ok_at pos
      rw [if_neg (not_or.mpr out)] at ran
      cases ran
      exact inv.requestRelease_steady (fun gets some_ => absurd (none_ (.inl gets)) some_) fun _ _ => .inl rfl
    · cases ran
  | abort t =>
    dsimp only [step] at ran
    split at ran
    · cases ran
    cases ran
    have kept : Steady (.abort t) s.fate (s.requestRelease t (if (s.requests t).sends then .rejected else .aborted)).fate := by
      refine inv.requestRelease_steady (fun gets _ => ?_) fun sends _ => ?_
      · rw [gets]
        rfl
      · rw [sends]
        exact .inr rfl
    rw [requestRemove_release_fate]
    exact kept

end System

/-- `stored` is what the queue has, in the order of acceptance. -/
structure System.Linear (s : System) (stored : List Message) : Prop where
  history : QueueHistory Message.priority s.log stored
  tree : Tree s.priorities s.buckets s.nextBucket stored
  count : s.count = stored.length
  bounded : s.count ≤ s.maxmsg
  bytes : s.bytes = (stored.map Message.size).sum
  receiverSleeps : ∀ t ∈ s.receivers, stored = []
  senderSleeps : ∀ t ∈ s.senders, s.count = s.maxmsg
  completed : ∀ t reason, (s.requests t).phase = .parked → t ∉ s.senders → t ∉ s.receivers → s.waitResult t reason = .ok
  nodup : (stored.map Message.name).Nodup
  storedIff : ∀ n, s.fate n = .stored ↔ ∃ m ∈ stored, m.name = n
  outgoingIff : ∀ n t, s.fate n = .outgoing t ↔ (s.requests t).sends = true ∧ ∃ m, (s.requests t).message = some m ∧ m.name = n
  heldIff : ∀ n t, s.fate n = .held t ↔ (s.requests t).sends = false ∧ ∃ m, (s.requests t).message = some m ∧ m.name = n
  sent : ∀ t, (s.requests t).phase = .done .ok → (s.requests t).message = none
  logged : Logged s.log s.fate
  steady : ∀ step after, s.step step = some (some after) → Steady step s.fate after.fate
  trapFree : ∀ step, s.step step ≠ some none

theorem queue_linearizable {maxmsg msgsize : Nat} (reachable : System.Reachable maxmsg msgsize s) : ∃ stored, s.Linear stored := by
  obtain ⟨stored, inv⟩ := reachable.consistent
  have fates := inv.core.fates
  exact ⟨stored, {
    history := inv.core.history
    tree := inv.core.tree
    count := inv.core.count
    bounded := inv.bounded
    bytes := inv.core.bytes
    receiverSleeps := fun t mem => inv.starved (List.ne_nil_of_mem mem)
    senderSleeps := fun t mem => le_antisymm inv.bounded (inv.full (List.ne_nil_of_mem mem))
    completed := fun t why pos unsent unreceived => by
      rw [waitResult, if_neg (not_or.mpr ⟨unsent, unreceived⟩)]
      rcases inv.ok_at pos with ⟨wrong, _⟩ | ⟨_, wrong, _⟩ | ⟨_, _, res, _⟩
      · exact absurd wrong unsent
      · exact absurd wrong unreceived
      · exact res
    nodup := fates.nodup
    storedIff := fun n => ⟨fates.storedOf n, by rintro ⟨m, mem, rfl⟩; exact fates.storedIn m mem⟩
    outgoingIff := fun n t => ⟨fun here => (fates_iff.mp fates).outgoing_iff.mp (congrArg Fate.place here),
      fun mine => Fate.place_inj ((fates_iff.mp fates).outgoing_iff.mpr mine)⟩
    heldIff := fun n t => ⟨fun here => (fates_iff.mp fates).held_iff.mp (congrArg Fate.place here),
      fun mine => Fate.place_inj ((fates_iff.mp fates).held_iff.mpr mine)⟩
    sent := fun t pos => (inv.ok_at pos).1 (.inr rfl)
    logged := inv.core.logged
    steady := fun step s' ran => inv.steady ran
    trapFree := fun step trapped => by
      have safe := inv.safe step
      rw [trapped] at safe
      exact safe }⟩

def System.run (s : System) : List Step → Option System
  | [] => some s
  | step :: rest => (s.step step).join.bind fun after => after.run rest

theorem System.Reachable.run {maxmsg msgsize : Nat} (run : Reachable maxmsg msgsize s)
    (ran : s.run steps = some s') : Reachable maxmsg msgsize s' := by
  induction steps generalizing s with
  | nil =>
    cases ran
    exact run
  | cons step rest ih =>
    obtain ⟨_, stepped, ran⟩ := bind_eq_some_iff.mp ran
    exact ih (.step run (join_eq_some_iff.mp stepped)) ran

/-- A sender blocks on a full queue, and the receiver that makes room accepts its message. -/
theorem queue_linearizable_drained : ∃ s : System, System.Reachable 1 8 s ∧ s.count = 1 ∧
    s.log = [.accepted ⟨1, 3, 2⟩, .taken ⟨0, 5, 4⟩, .accepted ⟨0, 5, 4⟩] ∧ ∃ stored, s.Linear stored := by
  have ran : ((initial 1 8).run [.send 0 5 4, .sendTry 0 false false false 0, .allocate 0 true,
      .sendTry 0 false false false 0, .send 1 3 2, .sendTry 1 false false false 0, .allocate 1 true,
      .sendTry 1 false false false 0, .receive 2 8, .receiveTry 2 false false false 0]).map
      (fun s => (s.count, s.log)) =
      some (1, [.accepted ⟨1, 3, 2⟩, .taken ⟨0, 5, 4⟩, .accepted ⟨0, 5, 4⟩]) := by decide +kernel
  obtain ⟨s, run, seen⟩ := map_eq_some_iff.mp ran
  simp only [Prod.mk.injEq] at seen
  have reach := Reachable.initial.run run
  exact ⟨s, reach, seen.1, seen.2, queue_linearizable reach⟩

/-- A receiver whose copy faults loses an accepted message, and no task was aborted. -/
theorem faulting_copy_loses : ∃ (steps : List Step) (s : System), (System.initial 1 8).run steps = some s ∧
    (∀ t, Step.abort t ∉ steps) ∧ QueueEvent.accepted ⟨0, 5, 4⟩ ∈ s.log ∧ s.count = 0 ∧ s.fate 0 = .faulted ∧
    (s.requests 0).message = none ∧ (s.requests 1).message = none := by
  have ran : ((initial 1 8).run [.send 0 5 4, .sendTry 0 false false false 0, .allocate 0 true,
      .sendTry 0 false false false 0, .finish 0, .receive 1 8, .receiveTry 1 false false false 0, .copy 1 true]).map
      (fun s => (s.log, s.count, s.fate 0, (s.requests 0).message, (s.requests 1).message)) =
      some ([.taken ⟨0, 5, 4⟩, .accepted ⟨0, 5, 4⟩], 0, .faulted, none, none) := by decide +kernel
  obtain ⟨s, run, seen⟩ := map_eq_some_iff.mp ran
  simp only [Prod.mk.injEq] at seen
  refine ⟨_, s, run, ?_, ?_, seen.2.1, seen.2.2.1, seen.2.2.2.1, seen.2.2.2.2⟩
  · intro t mem
    simp at mem
  · rw [seen.1]
    simp

end BoarOS.Mqueue
