import BoarOS.Msg.Steps

namespace BoarOS.Msg
open Data Function List Option Msg.System

/-! # Messages are conserved, and no waiter misses its wakeup -/

variable {s s' : System} {t u q : Nat} {m : Message} {step : Step}

/-- Where a step can move a message. What has been received, discarded, lost or rejected stays so. -/
def Moves (step : Step) : Place Gone → Place Gone → Prop
  | .unborn, .outgoing _ => True
  | .outgoing _, .stored _ => True
  | .outgoing _, .held _ => True
  | .outgoing t, .gone .rejected => step = .finish t ∨ step = .abort t
  | .stored _, .held _ => True
  | .stored q, .gone .discarded => step = .ipcRmid q
  | .held t, .gone .received => step = .copy t
  | .held t, .gone .died => step = .abort t
  | _, _ => False

def Steady (step : Step) (before after : Nat → Place Gone) : Prop :=
  ∀ n, after n = before n ∨ Moves step (before n) (after n)

theorem Steady.refl (pos : Nat → Place Gone) : Steady step pos pos := fun _ => .inl rfl

theorem Steady.update (moves : Moves step (pre n) pos) : Steady step pre (update pre n pos) := by
  intro k
  by_cases eq : k = n
  · subst eq
    rw [update_self]
    exact .inr moves
  · rw [update_of_ne eq]
    exact .inl rfl

def System.takes (s : System) (m : Message) (u : Nat) : Bool :=
  let r := s.requests u
  messageMatches m r.type r.flags && !decide (r.size < m.size ∧ r.flags.noerror = false)

/-- The first receiver that can take the message has it, and success. -/
theorem offer_given (ts : List Nat) : ∀ {s : System} {u : Nat}, ts.find? (s.takes m) = some u →
    (offer t m ts s).requests u = { s.requests u with message := some m, result := .ok } := by
  induction ts with
  | nil => simp
  | cons v rest ih =>
    intro s u found
    rw [offer]
    have matched : s.takes m v = (messageMatches m (s.requests v).type (s.requests v).flags &&
      !decide ((s.requests v).size < m.size ∧ (s.requests v).flags.noerror = false)) := rfl
    rw [find?_cons] at found
    split
    next fit =>
      split
      next small =>
        rw [matched, fit, decide_eq_true small] at found
        have fits : s.takes m u = true := find?_some found
        have ne : u ≠ v := by
          rintro rfl
          rw [matched, fit, decide_eq_true small] at fits
          cases fits
        have kept (w : Nat) : (s.requestComplete v .e2big).takes m w = s.takes m w := by
          unfold takes requestComplete
          by_cases here : w = v
          · subst here
            rw [show (System.setRequest _ w _).requests w = _ from update_self ..]
          · rw [show (System.setRequest _ v _).requests w = _ from update_of_ne here ..]
            rfl
        rw [ih (by rw [funext kept]; exact found), show (s.requestComplete v .e2big).requests u = _ from update_of_ne ne ..]
        rfl
      next room =>
        rw [matched, fit, decide_eq_false room] at found
        cases found
        exact update_self ..
    next out =>
      rw [matched, Bool.eq_false_iff.mpr out] at found
      exact ih found

theorem offer_place (ts : List Nat) : ∀ {s : System}, (offer t m ts s).place = update s.place m.name (match ts.find? (s.takes m) with
      | none => .stored (s.requests t).queue
      | some u => .held u) := by
  induction ts with
  | nil => exact rfl
  | cons u rest ih =>
    intro s
    have eq (v : Nat) : (s.requestComplete u .e2big).takes m v = s.takes m v ∧
        ((s.requestComplete u .e2big).requests v).queue = (s.requests v).queue := by
      by_cases here : v = u
      · subst here
        unfold takes
        rw [show (s.requestComplete v .e2big).requests v = _ from update_self ..]
        exact ⟨rfl, rfl⟩
      · unfold takes
        rw [show (s.requestComplete u .e2big).requests v = _ from update_of_ne here ..]
        exact ⟨rfl, rfl⟩
    rw [offer, find?_cons]
    split
    next fit =>
      split
      next small =>
        rw [ih, (eq t).2, funext fun v => (eq v).1, show s.takes m u = false by simp [takes, small]]
        rfl
      next room =>
        rw [show s.takes m u = true by simp only [takes, fit, room]; rfl]
        rfl
    next out =>
      rw [ih, show s.takes m u = false by simp [takes, out]]

theorem System.Consistent.outgoing (inv : s.Consistent settled) (sends : (s.requests t).sends = true)
    (mine : (s.requests t).message = some m) : s.place m.name = .outgoing t := by
  rw [inv.custody.holds t m mine, Party.place, if_pos (show (s.requests t).party.sends = true from sends)]

theorem requestRelease_steady (inv : s.Consistent settled)
    (gets : (s.requests t).sends = false → (s.requests t).message ≠ none → Moves step (.held t) (.gone gone))
    (sends : (s.requests t).sends = true → (s.requests t).message ≠ none → Moves step (.outgoing t) (.gone gone)) :
    Steady step s.place (s.requestRelease t gone).place := by
  unfold requestRelease
  cases mine : (s.requests t).message with
  | none => exact .refl _
  | some m =>
    have some_ : (s.requests t).message ≠ none := by simp [mine]
    refine Steady.update (n := m.name) ?_
    rw [inv.custody.holds t m mine]
    cases sender : (s.requests t).sends with
    | true =>
      rw [Party.place, if_pos (show (s.requests t).party.sends = true from sender)]
      exact sends sender some_
    | false =>
      rw [Party.place, if_neg (by simp [show (s.requests t).party.sends = false from sender])]
      exact gets sender some_

theorem requestRemove_release_place (gone : Gone) :
    ((s.requestRemove t).requestRelease t gone).place = (s.requestRelease t gone).place := by
  have eq : ((s.requestRemove t).requests t).message = (s.requests t).message := rfl
  unfold requestRelease
  rw [eq]
  cases (s.requests t).message <;> rfl

theorem sendTry_steady (inv : s.Consistent settled) (sends : (s.requests t).sends = true) (permitted : Bool) :
    Steady step s.place (s.sendTry t permitted).place := by
  dsimp only [sendTry]
  split
  · exact .refl _
  split
  · exact .refl _
  split
  · exact .refl _
  rename_i m mine
  have outgoing := inv.outgoing sends mine
  split
  · rw [offer_place]
    exact .update (by rw [outgoing]; split <;> trivial)
  split
  · exact .refl _
  · exact .refl _

theorem receiveTry_steady (inv : s.Consistent settled) (pos : (s.requests t).phase = .trying)
    (gets : (s.requests t).sends = false) (permitted : Bool) : Steady step s.place (s.receiveTry t permitted).place := by
  obtain ⟨sends, _⟩ | ⟨_, empty⟩ := inv.ok_at pos
  · cases gets.symm.trans sends
  dsimp only [receiveTry]
  split
  · exact .refl _
  split
  · exact .refl _
  cases got : messageFind (s.requests t).type (s.requests t).flags (s.queueOf t).messages none 0 with
  | none =>
    dsimp only
    split <;> exact .refl _
  | some m =>
    have mem := (messageFind_mem _ _ _ got).resolve_right nofun
    dsimp only
    split
    · exact .refl _
    split
    · exact .refl _
    split
    · exact .refl _
    have detached := inv.messageDetach pos gets empty mem
    rw [(wakeSenders_spec (q := (s.requests t).queue) _ detached (inv.waiters.senders _) fun u waits => (by
      rw [show (s.messageDetach t m).queues (s.requests t).queue = _ from update_self ..]
      exact waits)).2]
    refine Steady.update (n := m.name) ?_
    rw [inv.custody.storedIn _ m mem]
    trivial

theorem ipcSet_place (lim : Nat) : (s.ipcSet q lim).place = s.place := by
  have completes (res : Result) (ts : List Nat) : ∀ {s : System}, (completeAll res ts s).place = s.place := by
    induction ts with
    | nil => exact rfl
    | cons t rest ih => exact ih
  have wakes (ts : List Nat) : ∀ {s : System}, (wakeSenders q ts s).place = s.place := by
    induction ts with
    | nil => exact rfl
    | cons t rest ih =>
      intro s
      rw [wakeSenders, ih]
      split <;> rfl
  rw [ipcSet, wakes, completes]
  rfl

theorem System.Consistent.steady (inv : s.Consistent settled) (ran : s.step step = some s') : Steady step s.place s'.place := by
  cases step with
  | create =>
    cases ran
    exact .refl _
  | send t q type size flags =>
    cases (ite_none_left_eq_some.mp ran).2
    refine Steady.update (n := s.nextName) ?_
    rw [inv.custody.fresh s.nextName le_rfl]
    trivial
  | sendTry t permitted =>
    obtain ⟨applies, ran⟩ := ite_none_left_eq_some.mp ran
    simp only [not_or, not_not, Bool.not_eq_false] at applies
    cases ran
    exact sendTry_steady inv applies.2 permitted
  | receive | wait =>
    cases (ite_none_left_eq_some.mp ran).2
    exact .refl _
  | receiveTry t permitted =>
    obtain ⟨applies, ran⟩ := ite_none_left_eq_some.mp ran
    simp only [not_or, not_not, Bool.not_eq_true] at applies
    cases ran
    exact receiveTry_steady inv applies.1 applies.2 permitted
  | copy t =>
    obtain ⟨applies, ran⟩ := ite_none_left_eq_some.mp ran
    cases ran
    refine requestRelease_steady inv (fun _ _ => rfl) fun sends => ?_
    cases sends.symm.trans (inv.ok_at (not_not.mp applies))
  | finish t =>
    dsimp only [System.step] at ran
    split at ran
    next res pos =>
      cases ran
      have ok := inv.ok_at pos
      exact requestRelease_steady inv (fun gets some_ => absurd (ok.1 gets) some_) fun _ _ => .inl rfl
    · cases ran
  | abort t =>
    cases (ite_none_left_eq_some.mp ran).2
    rw [requestRemove_release_place]
    refine requestRelease_steady inv (fun gets _ => ?_) fun sends _ => ?_
    · rw [gets]
      rfl
    · rw [sends]
      exact .inr rfl
  | ipcSet q lim =>
    cases (ite_none_left_eq_some.mp ran).2
    rw [ipcSet_place]
    exact .refl _
  | ipcRmid q =>
    cases (ite_none_left_eq_some.mp ran).2
    intro n
    change (if s.place n = .stored q then _ else s.place n) = s.place n ∨
      Moves _ (s.place n) (if s.place n = .stored q then _ else s.place n)
    split
    next here =>
      rw [here]
      exact .inr rfl
    · exact .inl rfl

/-- The messages of a queue and of its waiters, the counters, and what a step can do with a message. -/
structure System.Conserved (s : System) : Prop where
  stored : ∀ n q, s.place n = .stored q ↔ ∃ m ∈ (s.queues q).messages, m.name = n
  nodup : ∀ q, ((s.queues q).messages.map Message.name).Nodup
  outgoing : ∀ n t, s.place n = .outgoing t ↔ (s.requests t).sends = true ∧ ∃ m, (s.requests t).message = some m ∧ m.name = n
  held : ∀ n t, s.place n = .held t ↔ (s.requests t).sends = false ∧ ∃ m, (s.requests t).message = some m ∧ m.name = n
  sent : ∀ t, (s.requests t).phase = .done .ok → (s.requests t).message = none
  steady : ∀ step after, s.step step = some after → Steady step s.place after.place
  copies : ∀ t permitted after, (s.requests t).flags.copy = true → s.step (.receiveTry t permitted) = some after →
    after.queues = s.queues ∧ after.place = s.place
  count : ∀ q, (s.queues q).count = (s.queues q).messages.length
  bytes : ∀ q, (s.queues q).bytes = ((s.queues q).messages.map Message.size).sum
  totals : s.messages = ∑ q ∈ Finset.range s.nextQueue, (s.queues q).count ∧ s.bytes = ∑ q ∈ Finset.range s.nextQueue, (s.queues q).bytes
  sender : ∀ q, ∀ t ∈ (s.queues q).senders, ∃ m, (s.requests t).message = some m ∧ fits (s.queues q) m.size = false
  receiver : ∀ q, ∀ t ∈ (s.queues q).receivers, ∀ m ∈ (s.queues q).messages,
    messageMatches m (s.requests t).type (s.requests t).flags = false

theorem message_conservation (reachable : s.Reachable) : s.Conserved := by
  have inv := reachable.consistent
  have custody := inv.custody
  have ws := inv.waiters
  exact {
    stored := fun n q => ⟨custody.storedOf q n, by rintro ⟨m, mem, rfl⟩; exact custody.storedIn q m mem⟩
    nodup := custody.nodup
    outgoing := fun n t => custody.outgoing_iff
    held := fun n t => custody.held_iff
    sent := fun t pos => (inv.ok_at pos).2 rfl
    steady := fun step s' ran => inv.steady ran
    copies := fun t permitted s' copying ran => by
      obtain ⟨ok, ran⟩ := ite_none_left_eq_some.mp ran
      simp only [not_or, not_not, Bool.not_eq_true] at ok
      cases ran
      have nowait := ws.copies t ok.2 copying
      dsimp only [receiveTry]
      split
      · exact ⟨rfl, rfl⟩
      split
      · exact ⟨rfl, rfl⟩
      split
      · split
        · exact ⟨rfl, rfl⟩
        split
        · exact ⟨rfl, rfl⟩
        exact ⟨rfl, rfl⟩
      · exact ⟨rfl, rfl⟩
    count := ws.count
    bytes := ws.size
    totals := ⟨ws.messages, ws.bytes⟩
    sender := fun q t mem => by
      have waits := ws.sender q t mem
      obtain ⟨_, ⟨m, mine, size⟩, _⟩ | ⟨gets, _⟩ := inv.ok_at waits.phase
      · refine ⟨m, mine, ?_⟩
        rw [size]
        exact (ws.blocked q t mem).resolve_left (by rintro ⟨⟩)
      · cases gets.symm.trans waits.sends
    receiver := ws.starved }

def System.run (s : System) : List Step → Option System
  | [] => some s
  | step :: rest => (s.step step).bind fun after => after.run rest

theorem System.Reachable.run (run : s.Reachable) (ran : s.run steps = some s') : s'.Reachable := by
  induction steps generalizing s with
  | nil =>
    cases ran
    exact run
  | cons step rest ih =>
    obtain ⟨_, stepped, ran⟩ := bind_eq_some_iff.mp ran
    exact ih (.step run stepped) ran

/-- A message passes a receiver with too small a buffer and is handed to the next. -/
theorem message_conservation_refused : ∃ s : System, s.Reachable ∧ s.place 0 = .held 1 ∧
    (s.requests 0).result = .e2big ∧ s.messages = 0 ∧ s.Conserved := by
  have ran : (initial.run [.create, .receive 0 0 0 2 ⟨false, false, false, false⟩, .receiveTry 0 true,
      .receive 1 0 7 8 ⟨false, false, false, false⟩, .receiveTry 1 true, .send 2 0 7 4 ⟨false, false, false, false⟩,
      .sendTry 2 true]).map (fun s => (s.place 0, (s.requests 0).result, s.messages)) =
      some (.held 1, .e2big, 0) := by decide +kernel
  obtain ⟨s, run, seen⟩ := map_eq_some_iff.mp ran
  simp only [Prod.mk.injEq] at seen
  have reach := Reachable.initial.run run
  exact ⟨s, reach, seen.1, seen.2.1, seen.2.2, message_conservation reach⟩

end BoarOS.Msg
