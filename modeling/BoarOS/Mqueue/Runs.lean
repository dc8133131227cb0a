import BoarOS.Mqueue.Operations

namespace BoarOS.Mqueue
open Data List Mqueue.System Request

/-! # Runs of the queue: who waits, and for what -/

def Request.Ok (r : Request) (sender receiver : Prop) : Prop :=
  match r.phase with
  | .idle => r.message = none ∧ ¬ sender ∧ ¬ receiver
  | .sending | .allocating => r.sends = true ∧ r.message ≠ none ∧ ¬ sender ∧ ¬ receiver
  | .receiving => r.sends = false ∧ r.message = none ∧ ¬ sender ∧ ¬ receiver
  | .parked =>
    (sender ∧ ¬ receiver ∧ r.sends = true ∧ r.message ≠ none ∧ r.priority ≠ none) ∨
    (¬ sender ∧ receiver ∧ r.sends = false ∧ r.message = none) ∨
    (¬ sender ∧ ¬ receiver ∧ r.result = .ok ∧ (r.sends = true ∧ r.message = none ∨ r.sends = false ∧ r.message ≠ none))
  | .copying => r.sends = false ∧ r.message ≠ none ∧ ¬ sender ∧ ¬ receiver
  | .done result => (r.sends = false ∨ result = .ok → r.message = none) ∧ ¬ sender ∧ ¬ receiver

structure System.Consistent (s : System) (stored : List Message) : Prop where
  core : s.Core stored
  request : ∀ t, (s.requests t).Ok (t ∈ s.senders) (t ∈ s.receivers)
  senders : s.senders.Nodup
  receivers : s.receivers.Nodup
  bounded : s.count ≤ s.maxmsg
  starved : s.receivers ≠ [] → stored = []
  full : s.senders ≠ [] → s.maxmsg ≤ s.count

variable {s s' : System} {kept : List Message} {t u : Nat} {m : Message} {r : Request}

theorem Request.ok_update {reqs : Nat → Request} {senders receivers sendersAfter receiversAfter : List Nat}
    (ok : ∀ u, (reqs u).Ok (u ∈ senders) (u ∈ receivers)) (sending : ∀ u, u ≠ t → (u ∈ sendersAfter ↔ u ∈ senders))
    (receiving : ∀ u, u ≠ t → (u ∈ receiversAfter ↔ u ∈ receivers)) (here : r.Ok (t ∈ sendersAfter) (t ∈ receiversAfter))
    (u : Nat) : (Function.update reqs t r u).Ok (u ∈ sendersAfter) (u ∈ receiversAfter) := by
  by_cases eq : u = t
  · subst eq
    rw [Function.update_self]
    exact here
  · rw [Function.update_of_ne eq, propext (sending u eq), propext (receiving u eq)]
    exact ok u

theorem mem_erase_other {ws : List Nat} (ne : u ≠ t) : u ∈ ws.erase t ↔ u ∈ ws := mem_erase_of_ne ne

theorem mem_insertWaiter (ws : List Nat) (prio : Nat) : u ∈ s.insertWaiter t prio ws ↔ u = t ∨ u ∈ ws := by
  induction ws with
  | nil => simp [insertWaiter]
  | cons next rest ih =>
    unfold insertWaiter
    split
    · rw [mem_cons, mem_cons]
      tauto
    · rw [mem_cons]

theorem nodup_insertWaiter (nodup : ws.Nodup) (out : t ∉ ws) (prio : Nat) : (s.insertWaiter t prio ws).Nodup := by
  induction ws with
  | nil => exact nodup_singleton t
  | cons next rest ih =>
    obtain ⟨apart, others⟩ := nodup_cons.mp nodup
    have ne : t ≠ next := fun eq => out (eq ▸ mem_cons_self)
    have miss : t ∉ rest := fun mem => out (.tail _ mem)
    unfold insertWaiter
    split
    · refine nodup_cons.mpr ⟨fun mem => ?_, ih others miss⟩
      rcases (mem_insertWaiter rest prio).mp mem with eq | old
      · exact ne eq.symm
      · exact apart old
    · exact nodup_cons.mpr ⟨out, nodup⟩

def System.Safe : Option (Option System) → Prop
  | none => True
  | some none => False
  | some (some after) => ∃ stored, after.Consistent stored

namespace System.Consistent
section
variable (inv : s.Consistent kept)
include inv

theorem setPhase (ph : Phase) (here : Ok { s.requests t with phase := ph } (t ∈ s.senders) (t ∈ s.receivers)) :
    (s.setPhase t ph).Consistent kept :=
  { inv with
    core := inv.core.setPhase ph
    request := ok_update inv.request (fun _ _ => Iff.rfl) (fun _ _ => Iff.rfl) here }

theorem waiting_sender (mem : t ∈ s.senders) :
    (s.requests t).phase = .parked ∧ (s.requests t).sends = true ∧ (s.requests t).message ≠ none ∧
      (s.requests t).priority ≠ none ∧ t ∉ s.receivers := by
  have ok := inv.request t
  unfold Ok at ok
  cases place : (s.requests t).phase with
  | parked =>
    simp only [place] at ok
    rcases ok with ⟨_, apart, sends, msg, spare⟩ | ⟨wrong, _⟩ | ⟨wrong, _⟩
    · exact ⟨rfl, sends, msg, spare, apart⟩
    · exact absurd mem wrong
    · exact absurd mem wrong
  | _ =>
    simp only [place] at ok
    tauto

theorem waiting_receiver (mem : t ∈ s.receivers) :
    (s.requests t).phase = .parked ∧ (s.requests t).sends = false ∧ (s.requests t).message = none ∧ t ∉ s.senders := by
  have ok := inv.request t
  unfold Ok at ok
  cases place : (s.requests t).phase with
  | parked =>
    simp only [place] at ok
    rcases ok with ⟨_, wrong, _⟩ | ⟨apart, _, sends, msg⟩ | ⟨_, wrong, _⟩
    · exact absurd mem wrong
    · exact ⟨rfl, sends, msg, apart⟩
    · exact absurd mem wrong
  | _ =>
    simp only [place] at ok
    tauto

theorem requestPrepare (expired signalled : Bool) (prio : Nat) (out : t ∉ s.senders ∧ t ∉ s.receivers)
    (waits : (s.requests t).sends = true ∧ (s.requests t).message ≠ none ∧ (s.requests t).priority ≠ none ∧ s.maxmsg ≤ s.count ∨
      (s.requests t).sends = false ∧ (s.requests t).message = none ∧ kept = []) :
    (s.requestPrepare t expired signalled prio).Consistent kept := by
  have ended (res : Result) (failed : res ≠ .ok) : Ok { s.requests t with phase := .done res } (t ∈ s.senders) (t ∈ s.receivers) := by
    refine ⟨fun ends => ?_, out⟩
    have gets := ends.resolve_right failed
    rcases waits with ⟨sends, _⟩ | ⟨_, empty, _⟩
    · rw [show (s.requests t).sends = false from gets] at sends
      cases sends
    · exact empty
  unfold System.requestPrepare
  split
  · exact inv.setPhase (.done .etimedout) (ended _ nofun)
  split
  · exact inv.setPhase (.done .erestartsys) (ended _ nofun)
  have core : (s.setRequest t { s.requests t with
      phase := .parked, waitPriority := prio, result := .pending }).Core kept :=
    inv.core.setRequest rfl (fun _ => rfl) fun _ spare => spare
  rcases waits with ⟨sends, msg, spare, room⟩ | ⟨gets, empty, nothing⟩
  · rw [if_pos sends]
    exact {
      core := { core with }
      request := ok_update inv.request (fun u ne => by rw [mem_insertWaiter]; exact or_iff_right ne) (fun _ _ => Iff.rfl)
        (.inl ⟨(mem_insertWaiter ..).mpr (.inl rfl), out.2, sends, msg, spare⟩)
      senders := nodup_insertWaiter inv.senders out.1 prio
      receivers := inv.receivers
      bounded := inv.bounded
      starved := inv.starved
      full := fun _ => room }
  rw [if_neg (by simp [gets])]
  exact {
    core := { core with }
    request := ok_update inv.request (fun _ _ => Iff.rfl) (fun u ne => by rw [mem_insertWaiter]; exact or_iff_right ne)
      (.inr (.inl ⟨out.1, (mem_insertWaiter ..).mpr (.inl rfl), gets, empty⟩))
    senders := inv.senders
    receivers := nodup_insertWaiter inv.receivers out.2 prio
    bounded := inv.bounded
    starved := fun _ => nothing
    full := inv.full }

theorem leave (core : Core s' kept) (reqs : s'.requests = Function.update s.requests t r)
    (senders : s'.senders = s.senders.erase t) (receivers : s'.receivers = s.receivers.erase t)
    (maxmsg : s'.maxmsg = s.maxmsg) (n : s'.count = s.count) (here : r.Ok False False) : s'.Consistent kept := by
  have out : t ∉ s.senders.erase t ∧ t ∉ s.receivers.erase t := ⟨inv.senders.not_mem_erase, inv.receivers.not_mem_erase⟩
  refine ⟨core, ?_, ?_, ?_, ?_, ?_, ?_⟩
  · rw [reqs, senders, receivers]
    refine ok_update inv.request (fun u ne => mem_erase_other ne) (fun u ne => mem_erase_other ne) ?_
    rw [eq_false out.1, eq_false out.2]
    exact here
  · rw [senders]
    exact inv.senders.erase t
  · rw [receivers]
    exact inv.receivers.erase t
  · rw [n, maxmsg]
    exact inv.bounded
  · rw [receivers]
    exact fun wait => inv.starved fun none => wait (by rw [none]; rfl)
  · rw [senders, n, maxmsg]
    exact fun wait => inv.full fun none => wait (by rw [none]; rfl)

end
end System.Consistent
end BoarOS.Mqueue
