import BoarOS.Msg.Sections

namespace BoarOS.Msg
open Data Function List Option Msg.System

/-! # Every step keeps the invariant -/

variable {s s' : System} {pend : Nat → Nat → Prop} {t u q : Nat} {r : Request} {m : Message} {res : Result}

theorem messageFind_mem (type : Int) (flags : Flags) (messages : List Message) : ∀ {best : Option Message} {i : Nat},
    messageFind type flags messages best i = some m → m ∈ messages ∨ best = some m := by
  induction messages with
  | nil => exact fun got => .inr got
  | cons head rest ih =>
    intro best i got
    have later {best : Option Message} {i : Nat} (got : messageFind type flags rest best i = some m) :
        m ∈ head :: rest ∨ best = some m := (ih got).imp_left (.tail _)
    have first (eq : some head = some m) : m ∈ head :: rest := by
      cases eq
      exact .head _
    unfold messageFind at got
    split at got
    · split at got
      · exact .inl (first got)
      · exact later got
    split at got
    · exact later got
    split at got
    · exact .inl (first got)
    split at got
    · exact (later got).elim .inl fun eq => .inl (first eq)
    split at got
    · exact (later got).elim .inl fun eq => .inl (first eq)
    · exact later got

theorem messageFind_none (reads : flags.copy = false) (messages : List Message) :
    ∀ {best : Option Message} {i : Nat}, messageFind type flags messages best i = none →
      best = none ∧ ∀ m ∈ messages, messageMatches m type flags = false := by
  induction messages with
  | nil => exact fun miss => ⟨miss, nofun⟩
  | cons head rest ih =>
    intro best i miss
    unfold messageFind at miss
    rw [if_neg (by simp [reads])] at miss
    split at miss
    next ne =>
      obtain ⟨none_, others⟩ := ih miss
      refine ⟨none_, fun m mem => ?_⟩
      rcases mem_cons.mp mem with rfl | later
      · exact ne
      · exact others m later
    split at miss
    · cases miss
    split at miss
    · cases (ih miss).1
    split at miss
    · cases (ih miss).1
    · cases (ih miss).1

theorem Waiters.count_le {qs : Nat → Queue} {nextQueue messages bytes : Nat} {reqs : Nat → Request}
    (ws : Waiters qs nextQueue reqs messages bytes pend) (live : q < nextQueue) : (qs q).count ≤ messages ∧ (qs q).bytes ≤ bytes := by
  rw [ws.messages, ws.bytes]
  exact ⟨Finset.single_le_sum (f := fun p => (qs p).count) (fun _ _ => Nat.zero_le _) (Finset.mem_range.mpr live),
    Finset.single_le_sum (f := fun p => (qs p).bytes) (fun _ _ => Nat.zero_le _) (Finset.mem_range.mpr live)⟩

namespace System.Consistent

theorem messageDetach (inv : s.Consistent settled) (pos : (s.requests t).phase = .trying)
    (gets : (s.requests t).sends = false) (empty : (s.requests t).message = none) (mem : m ∈ (s.queueOf t).messages) :
    (s.messageDetach t m).Consistent (fun p u => p = (s.requests t).queue ∧ u ∈ (s.queueOf t).senders) := by
  have unparked : (s.requests t).phase ≠ .parked := by simp [pos]
  have live := inv.waiters.queued t (by simp [pos])
  have ws := inv.waiters.setRequest (r := { s.requests t with message := some m, phase := .copying }) unparked
    gets (fun _ => live) (inv.waiters.copies t)
  have perm := perm_cons_erase mem
  have len : (s.queueOf t).messages.length = ((s.queueOf t).messages.erase m).length + 1 := perm.length_eq
  have sizes : ((s.queueOf t).messages.map Message.size).sum = m.size + (((s.queueOf t).messages.erase m).map Message.size).sum := by
    rw [(perm.map Message.size).sum_eq, map_cons, sum_cons]
  have count : (s.queueOf t).count = (s.queueOf t).messages.length := ws.count _
  have size : (s.queueOf t).bytes = ((s.queueOf t).messages.map Message.size).sum := ws.size _
  have totals : (s.queueOf t).count ≤ s.messages ∧ (s.queueOf t).bytes ≤ s.bytes := ws.count_le live
  constructor
  · change Custody Message.name (fun u => (update s.requests t _ u).party)
      (fun p => (update s.queues (s.requests t).queue _ p).messages) _ s.nextName
    rw [parties_update, stores_update]
    exact inv.custody.obtain perm empty rfl gets
  refine ws.replace live { s.queueOf t with
      messages := (s.queueOf t).messages.erase m, count := (s.queueOf t).count - 1
      bytes := (s.queueOf t).bytes - m.size }
    (ws.sender _) (fun u waits => .inl ⟨rfl, waits⟩) nofun (ws.receiver _)
    (fun u waits x listed => ws.starved _ u waits x (mem_of_mem_erase listed)) (ws.senders _)
    (ws.receivers _) ?_ ?_ (fun gone => ?_) ?_ ?_
  · change (s.queueOf t).count - 1 = ((s.queueOf t).messages.erase m).length
    omega
  · change (s.queueOf t).bytes - m.size = (((s.queueOf t).messages.erase m).map Message.size).sum
    omega
  · have none_ := (ws.removed _ gone).1
    rw [show (s.queueOf t).messages = [] from none_] at mem
    cases mem
  · change s.messages - 1 + (s.queueOf t).count = s.messages + ((s.queueOf t).count - 1)
    omega
  · change s.bytes - m.size + (s.queueOf t).bytes = s.bytes + ((s.queueOf t).bytes - m.size)
    omega

theorem requestPrepare (inv : s.Consistent pend) (pos : (s.requests t).phase = .trying) (kept : (s.queueOf t).removed = false)
    (waits : (s.requests t).sends = true ∧ fits (s.queueOf t) (s.requests t).size = false ∨
      (s.requests t).sends = false ∧ ∀ m ∈ (s.queueOf t).messages, messageMatches m (s.requests t).type (s.requests t).flags = false) :
    (s.requestPrepare t).Consistent pend := by
  refine ⟨?_, inv.waiters.join pos kept waits⟩
  change Custody Message.name (fun u => (update s.requests t _ u).party)
    (fun p => (update s.queues (s.requests t).queue _ p).messages) s.place s.nextName
  rw [parties_update, stores_same]
  · exact inv.custody.frame rfl fun _ => rfl
  · split <;> rfl

theorem ok_at (inv : s.Consistent pend) (pos : (s.requests t).phase = ph) : Request.Ok { s.requests t with phase := ph } := by
  have ok := inv.waiters.request t
  rw [← pos]
  exact ok

theorem sendTry (inv : s.Consistent settled) (pos : (s.requests t).phase = .trying)
    (sends : (s.requests t).sends = true) (permitted : Bool) : (s.sendTry t permitted).Consistent settled := by
  have unparked : (s.requests t).phase ≠ .parked := by simp [pos]
  have live : (s.requests t).phase ≠ .idle := by simp [pos]
  have ended (res : Result) (failed : res ≠ .ok) : (s.setPhase t (.done res)).Consistent settled :=
    inv.setPhase unparked live ⟨fun gets => (by cases sends.symm.trans gets), fun ok => absurd ok failed⟩
  obtain ⟨_, m, mine, size⟩ | ⟨gets, _⟩ := inv.ok_at pos
  · have mine : (s.requests t).message = some m := mine
    dsimp only [System.sendTry]
    split
    · exact ended _ nofun
    rename_i kept
    have kept : (s.queueOf t).removed = false := Bool.not_eq_true _ ▸ kept
    split
    · exact ended _ nofun
    rw [mine]
    dsimp only
    split
    · exact inv.offer _ ⟨pos, sends, mine, size, kept⟩ (inv.waiters.receivers _) (fun _ mem => mem) fun u mem out => absurd mem out
    rename_i full
    split
    · exact ended _ nofun
    · exact inv.requestPrepare pos kept (.inl ⟨sends, Bool.not_eq_true _ ▸ full⟩)
  · cases sends.symm.trans gets

theorem receiveTry (inv : s.Consistent settled) (pos : (s.requests t).phase = .trying)
    (gets : (s.requests t).sends = false) (permitted : Bool) : (s.receiveTry t permitted).Consistent settled := by
  have unparked : (s.requests t).phase ≠ .parked := by simp [pos]
  have live : (s.requests t).phase ≠ .idle := by simp [pos]
  obtain ⟨sends, _⟩ | ⟨_, empty⟩ := inv.ok_at pos
  · cases gets.symm.trans sends
  have empty : (s.requests t).message = none := empty
  have ended (res : Result) : (s.setPhase t (.done res)).Consistent settled := inv.setPhase unparked live ⟨fun _ => empty, fun _ => empty⟩
  dsimp only [System.receiveTry]
  split
  · exact ended _
  rename_i kept
  have kept : (s.queueOf t).removed = false := Bool.not_eq_true _ ▸ kept
  split
  · exact ended _
  cases got : messageFind (s.requests t).type (s.requests t).flags (s.queueOf t).messages none 0 with
  | some m =>
    have mem := (messageFind_mem _ _ _ got).resolve_right nofun
    dsimp only
    split
    · exact ended _
    split
    · exact ended _
    split
    · exact inv.setRequest unparked (inv.custody.frame rfl fun _ => rfl) gets (fun _ => inv.waiters.queued t live) (inv.waiters.copies t)
    have detached := inv.messageDetach pos gets empty mem
    refine (wakeSenders_spec (q := (s.requests t).queue) _ detached (inv.waiters.senders _) fun u waits => ?_).1
    rw [show (s.messageDetach t m).queues (s.requests t).queue = _ from update_self ..]
    exact waits
  | none =>
    dsimp only
    split
    · exact ended _
    rename_i waits
    have reads : (s.requests t).flags.copy = false := by
      cases copying : (s.requests t).flags.copy with
      | false => rfl
      | true => exact absurd (inv.waiters.copies t gets copying) waits
    exact inv.requestPrepare pos kept (.inr ⟨gets, (messageFind_none reads _ got).2⟩)

theorem requestWait (inv : s.Consistent pend) (pos : (s.requests t).phase = .parked) (signalled : Bool) :
    (s.requestWait t signalled).Consistent pend := by
  have live := inv.waiters.queued t (by simp [pos])
  refine inv.leave (inv.custody.frame rfl fun _ => rfl) ?_ (fun _ => live) (inv.waiters.copies t)
  -- a request that is still in its list has no result of another party
  have pendingResult : t ∈ (s.queueOf t).senders ∨ t ∈ (s.queueOf t).receivers → (s.requests t).result = .again := by
    rintro (mem | mem)
    · exact (inv.waiters.sender _ t mem).result
    · exact (inv.waiters.receiver _ t mem).result
  generalize foundEq : (if t ∈ (s.queueOf t).senders ∨ t ∈ (s.queueOf t).receivers then Result.eintr else (s.requests t).result) = got
  have found_ok : got = .ok → (s.requests t).result = .ok := by
    intro ok
    rw [← foundEq] at ok
    split at ok
    · cases ok
    · exact ok
  have found_failed : (s.requests t).result = .ok → got = .ok := by
    intro ok
    rw [← foundEq, if_neg fun queued => ?_]
    · exact ok
    · cases ok.symm.trans (pendingResult queued)
  generalize resultEq : (if (s.requests t).sends = true ∧ (s.queueOf t).removed = true then Result.eidrm
    else if got = .again ∧ signalled = true then .eintr else got) = res
  have result_ok : res = .ok → got = .ok := by
    intro ok
    rw [← resultEq] at ok
    split at ok
    · cases ok
    split at ok
    · cases ok
    · exact ok
  have result_kept (gets : (s.requests t).sends = false) (ok : got = .ok) : res = .ok := by
    rw [← resultEq, if_neg (by simp [gets]), if_neg (by simp [ok]), ok]
  have parked := inv.ok_at pos
  by_cases again : res = .again
  · rw [if_pos again]
    rcases parked with ⟨sends, mine, _⟩ | ⟨gets, ⟨empty, _⟩ | ⟨_, delivered⟩⟩
    · exact .inl ⟨sends, mine⟩
    · exact .inr ⟨gets, empty⟩
    have ok := result_kept gets (found_failed delivered)
    rw [again] at ok
    cases ok
  rw [if_neg again]
  by_cases ok : res = .ok ∧ (s.requests t).sends = false
  · rw [if_pos ok]
    exact ok.2
  rw [if_neg ok]
  rcases parked with ⟨sends, _, failed⟩ | ⟨gets, ⟨empty, _⟩ | ⟨_, delivered⟩⟩
  · exact ⟨fun gets => (by cases gets.symm.trans sends), fun good => absurd (found_ok (result_ok good)) failed⟩
  · exact ⟨fun _ => empty, fun _ => empty⟩
  · exact absurd ⟨result_kept gets (found_failed delivered), gets⟩ ok

theorem requestRelease (inv : s.Consistent pend) (gone : Gone) : ((s.requestRemove t).requestRelease t gone).Consistent pend := by
  unfold System.requestRelease
  have eq : ((s.requestRemove t).requests t).message = (s.requests t).message := rfl
  rw [eq]
  cases mine : (s.requests t).message with
  | none => exact inv.leave (inv.custody.frame mine.symm fun wrong => absurd rfl wrong) rfl nofun nofun
  | some m => exact inv.leave (inv.custody.retire mine rfl gone) rfl nofun nofun

theorem requestRemove_outside (out : t ∉ (s.queueOf t).senders ∧ t ∉ (s.queueOf t).receivers) : s.requestRemove t = s := by
  unfold requestRemove setQueue
  rw [erase_of_not_mem out.1, erase_of_not_mem out.2]
  change { s with queues := update s.queues (s.requests t).queue (s.queues (s.requests t).queue) } = s
  rw [update_eq_self]

theorem ipcSet (inv : s.Consistent settled) (live : q < s.nextQueue) (kept : (s.queues q).removed = false)
    (lim : Nat) : (s.ipcSet q lim).Consistent settled := by
  have ws := inv.waiters
  have limited : (s.setQueue q { s.queues q with limit := lim }).Consistent (fun p u => p = q ∧ u ∈ (s.queues q).senders) := by
    constructor
    · change Custody Message.name _ (fun p => (update s.queues q _ p).messages) s.place s.nextName
      rw [stores_same]
      · exact inv.custody
      · rfl
    · exact ws.replace live { s.queues q with limit := lim } (ws.sender q) (fun u mem => .inl ⟨rfl, mem⟩)
        nofun (ws.receiver q) (ws.starved q) (ws.senders q) (ws.receivers q) (ws.count q)
        (ws.size q) (fun gone => by cases kept.symm.trans gone) rfl rfl
  have here : (s.setQueue q { s.queues q with limit := lim }).queues q = { s.queues q with limit := lim } := update_self ..
  obtain ⟨completed, woken⟩ := completeAll_spec (q := q) .again nofun (s.queues q).receivers limited
    (ws.receivers q) fun u mem => .inr (by rwa [here])
  refine (wakeSenders_spec (s.queues q).senders completed (ws.senders q) fun u mem => ?_).1
  rw [woken.senders, here]
  refine ⟨mem, fun gets => ?_⟩
  have one := (ws.sender q u mem).sends
  rw [(ws.receiver q u gets).sends] at one
  cases one

theorem queueRemove (inv : s.Consistent settled) (live : q < s.nextQueue) : (s.queueRemove q).Consistent settled := by
  have ws := inv.waiters
  obtain ⟨first, one⟩ := completeAll_spec (q := q) .eidrm nofun (s.queues q).senders inv (ws.senders q) fun u mem => .inl mem
  obtain ⟨snd, two⟩ := completeAll_spec (q := q) .eidrm nofun (s.queues q).receivers first
    (ws.receivers q) fun u mem => .inr (by
      rw [one.receivers]
      refine ⟨mem, fun sends => ?_⟩
      have wrong := (ws.sender q u sends).sends
      rw [(ws.receiver q u mem).sends] at wrong
      cases wrong)
  have woken := one.trans two
  dsimp only [System.queueRemove]
  generalize completeAll .eidrm (s.queues q).receivers (completeAll .eidrm (s.queues q).senders s) = s' at snd woken
  have unsent : (s'.queues q).senders = [] := eq_nil_iff_forall_not_mem.mpr fun u mem => by
    rw [woken.senders, mem_append] at mem
    exact mem.2 (.inl mem.1)
  have unreceived : (s'.queues q).receivers = [] := eq_nil_iff_forall_not_mem.mpr fun u mem => by
    rw [woken.receivers, mem_append] at mem
    exact mem.2 (.inr mem.1)
  have totals := ws.count_le live
  constructor
  · change Custody Message.name _ (fun p => (update s'.queues q _ p).messages) _ s'.nextName
    rw [stores_update, ← woken.place]
    exact snd.custody.discard q .discarded
  refine snd.waiters.replace (by rwa [woken.nextQueue])
    { s'.queues q with removed := true, messages := [], count := 0, bytes := 0 } ?_ ?_ nofun ?_ ?_ ?_ ?_ rfl rfl
    (fun _ => ⟨rfl, unsent, unreceived⟩) ?_ ?_
  · rw [unsent]
    nofun
  · rw [unsent]
    nofun
  · rw [unreceived]
    nofun
  · rw [unreceived]
    nofun
  · exact snd.waiters.senders q
  · exact snd.waiters.receivers q
  · rw [woken.queue, woken.messages]
    dsimp only
    omega
  · rw [woken.queue, woken.bytes]
    dsimp only
    omega

theorem create (inv : s.Consistent settled) : Consistent { s.setQueue s.nextQueue .new with nextQueue := s.nextQueue + 1 } settled := by
  have ws := inv.waiters
  have blank := ws.unborn s.nextQueue le_rfl
  have eq : update s.queues s.nextQueue .new = s.queues := by
    rw [← blank]
    exact update_eq_self ..
  constructor
  · change Custody Message.name _ (fun p => (update s.queues s.nextQueue .new p).messages) s.place s.nextName
    rw [eq]
    exact inv.custody
  change Waiters (update s.queues s.nextQueue .new) (s.nextQueue + 1) s.requests s.messages s.bytes settled
  rw [eq]
  exact { ws with
    queued := fun t live => Nat.lt_succ_of_lt (ws.queued t live)
    unborn := fun q high => ws.unborn q (by omega)
    messages := by
      rw [Finset.sum_range_succ, blank, ← ws.messages]
      rfl
    bytes := by
      rw [Finset.sum_range_succ, blank, ← ws.bytes]
      rfl }

end System.Consistent

theorem System.Consistent.step {step : Step} (inv : s.Consistent settled) (ran : s.step step = some s') : s'.Consistent settled := by
  cases step with
  | create =>
    cases ran
    exact inv.create
  | send t q type size flags =>
    obtain ⟨ok, ran⟩ := ite_none_left_eq_some.mp ran
    simp only [not_or, not_not, not_le] at ok
    cases ran
    have unparked : (s.requests t).phase ≠ .parked := by simp [ok.1]
    have empty : (s.requests t).message = none := inv.ok_at ok.1
    constructor
    · change Custody Message.name (fun u => (update s.requests t _ u).party) _ _ (s.nextName + 1)
      rw [parties_update]
      exact @Custody.begin Message Gone Message.name _ _ _ _ t ⟨s.nextName, type, size⟩
        ⟨true, some ⟨s.nextName, type, size⟩⟩ inv.custody empty rfl rfl rfl
    · exact inv.waiters.setRequest unparked (.inl ⟨rfl, ⟨s.nextName, type, size⟩, rfl, rfl⟩) (fun _ => ok.2.1) nofun
  | sendTry t permitted =>
    obtain ⟨ok, ran⟩ := ite_none_left_eq_some.mp ran
    simp only [not_or, not_not, Bool.not_eq_false] at ok
    cases ran
    exact inv.sendTry ok.1 ok.2 permitted
  | receive t q type size flags =>
    obtain ⟨ok, ran⟩ := ite_none_left_eq_some.mp ran
    simp only [not_or, not_not, not_le, not_and, Bool.not_eq_false] at ok
    cases ran
    have unparked : (s.requests t).phase ≠ .parked := by simp [ok.1]
    have empty : (s.requests t).message = none := inv.ok_at ok.1
    exact inv.setRequest unparked (inv.custody.frame empty.symm fun wrong => absurd rfl wrong)
      (.inr ⟨rfl, rfl⟩) (fun _ => ok.2.1) fun _ copying => (ok.2.2 copying).2
  | receiveTry t permitted =>
    obtain ⟨ok, ran⟩ := ite_none_left_eq_some.mp ran
    simp only [not_or, not_not, Bool.not_eq_true] at ok
    cases ran
    exact inv.receiveTry ok.1 ok.2 permitted
  | wait t signalled =>
    obtain ⟨ok, ran⟩ := ite_none_left_eq_some.mp ran
    cases ran
    exact inv.requestWait (not_not.mp ok) signalled
  | copy t =>
    obtain ⟨ok, ran⟩ := ite_none_left_eq_some.mp ran
    cases ran
    have kept := inv.requestRelease (t := t) .received
    rw [Consistent.requestRemove_outside (inv.waiters.outside (by simp [not_not.mp ok]) _)] at kept
    exact kept
  | finish t =>
    dsimp only [System.step] at ran
    split at ran
    next res pos =>
      cases ran
      have kept := inv.requestRelease (t := t) .rejected
      rw [Consistent.requestRemove_outside (inv.waiters.outside (by simp [pos]) _)] at kept
      exact kept
    · cases ran
  | abort t =>
    dsimp only [System.step] at ran
    split at ran
    · cases ran
    cases ran
    exact inv.requestRelease _
  | ipcSet q lim =>
    obtain ⟨ok, ran⟩ := ite_none_left_eq_some.mp ran
    simp only [not_or, not_le, Bool.not_eq_true] at ok
    cases ran
    exact inv.ipcSet ok.1 ok.2 lim
  | ipcRmid q =>
    obtain ⟨ok, ran⟩ := ite_none_left_eq_some.mp ran
    simp only [not_or, not_le] at ok
    cases ran
    exact inv.queueRemove ok.1

theorem System.initial_consistent : initial.Consistent settled where
  custody := ⟨nofun, nofun, nofun, nofun, fun _ => nodup_nil, fun _ _ => rfl⟩
  waiters := {
    request := fun _ => rfl
    queued := fun _ wrong => absurd rfl wrong
    copies := nofun
    sender := nofun
    blocked := nofun
    receiver := nofun
    starved := nofun
    senders := fun _ => nodup_nil
    receivers := fun _ => nodup_nil
    count := fun _ => rfl
    size := fun _ => rfl
    removed := nofun
    unborn := fun _ _ => rfl
    messages := rfl
    bytes := rfl }

theorem System.Reachable.consistent (run : s.Reachable) : s.Consistent settled := by
  induction run with
  | initial => exact initial_consistent
  | step _ ran kept => exact kept.step ran

end BoarOS.Msg
