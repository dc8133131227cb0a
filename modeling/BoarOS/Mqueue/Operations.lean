import BoarOS.Mqueue.Core

namespace BoarOS.Mqueue
open Data Function List Message

/-! # The operations on messages keep what the queue stores -/

section Fates
variable {requests : Nat → Request} {fate : Nat → Fate} {nextName t : Nat} {stored rest : List Message} {m : Message}
  {r : Request}

section
variable (fates : Fates requests fate nextName stored)
include fates

theorem Fates.frame (msg : r.message = (requests t).message) (sends : r.message ≠ none → r.sends = (requests t).sends) :
    Fates (update requests t r) fate nextName stored := by
  rw [fates_iff, comp_update]
  exact (fates_iff.mp fates).frame msg sends

theorem Fates.store (mine : (requests t).message = some m) (empty : r.message = none) :
    Fates (update requests t r) (update fate m.name .stored) nextName (stored ++ [m]) := by
  rw [fates_iff, comp_update, comp_update]
  have stays := (fates_iff.mp fates).store mine (show r.party.item = none from empty) 0
  rwa [update_idem, update_self] at stays

theorem Fates.retire (mine : (requests t).message = some m) (empty : r.message = none)
    (gone : pos.place = .gone pos) : Fates (update requests t r) (update fate m.name pos) nextName stored := by
  rw [fates_iff, comp_update, comp_update, gone]
  exact (fates_iff.mp fates).retire mine empty pos

theorem Fates.obtain (perm : stored.Perm (m :: rest)) (empty : (requests t).message = none) (gets : r.message = some m)
    (receives : r.sends = false) : Fates (update requests t r) (update fate m.name (.held t)) nextName rest := by
  rw [fates_iff, comp_update, comp_update]
  have taken := (fates_iff.mp fates).obtain (q := 0) (by rwa [update_self]) empty (show r.party.item = some m from gets) receives
  rwa [update_idem] at taken

theorem Fates.begin (empty : (requests t).message = none) (gets : r.message = some m) (sends : r.sends = true)
    (name : m.name = nextName) : Fates (update requests t r) (update fate m.name (.outgoing t)) (nextName + 1) stored := by
  rw [fates_iff, comp_update, comp_update]
  exact (fates_iff.mp fates).begin empty gets sends name

end
end Fates

variable {s s' : System} {stored : List Message} {t u : Nat} {m : Message} {node : KeyNode} {r : Request}

namespace System.Core
section
variable (core : s.Core stored)
include core

theorem setRequest (msg : r.message = (s.requests t).message) (sends : r.message ≠ none → r.sends = (s.requests t).sends)
    (kept : ∀ node, r.priority = some node → (s.requests t).priority = some node) : (s.setRequest t r).Core stored where
  tree := core.tree
  spares := core.spares.update kept fun m node sender mine spare =>
    core.spares.keyed t m node ((sends (by simp [mine])).symm.trans sender) (msg.symm.trans mine) (kept node spare)
  fates := core.fates.frame msg sends
  count := core.count
  bytes := core.bytes
  history := core.history
  logged := core.logged

theorem setPhase (ph : Phase) : (s.setPhase t ph).Core stored := core.setRequest rfl (fun _ => rfl) fun _ spare => spare

theorem requestRemove : (s.requestRemove t).Core stored := { core with }

theorem requestComplete : (s.requestComplete t).Core stored := core.requestRemove.setRequest rfl (fun _ => rfl) fun _ spare => spare

theorem requestRelease {fate : Fate} (gone : fate.place = .gone fate)
    (marks : (s.requests t).message ≠ none → fate.accepted = !(s.requests t).sends) : (s.requestRelease t fate).Core stored := by
  unfold System.requestRelease
  cases mine : (s.requests t).message with
  | none => exact core.setRequest mine.symm (fun wrong => absurd rfl wrong) nofun
  | some m =>
    exact {
      tree := core.tree
      spares := core.spares.update nofun nofun
      fates := core.fates.retire mine rfl gone
      count := core.count
      bytes := core.bytes
      history := core.history
      logged := by
        have was := core.fates.holds t m mine
        have now := marks (by simp [mine])
        refine core.logged.quiet ?_ ?_
        · rw [was, now]
          cases (s.requests t).sends <;> rfl
        · rw [was]
          cases sends : (s.requests t).sends <;> rw [sends] at now <;> cases fate <;> cases gone <;> first | rfl | cases now }

theorem foreign (mem : node ∈ s.priorities.flatten) (k : KeyNode) (spare : (s.requests t).priority = some k) : k.owner ≠ node.owner := by
  intro eq
  have full := core.tree.nonempty node mem
  rw [← eq] at full
  exact full (core.spares.empty t k spare).2

theorem messageEnqueue (mine : (s.requests t).message = some m) (sends : (s.requests t).sends = true)
    (provided : s.priorities.find m.priority ≠ none ∨ (s.requests t).priority ≠ none) :
    ∃ s' prio, s.messageEnqueue t = some s' ∧ s'.Core (stored ++ [m]) ∧ s'.senders = s.senders ∧
      s'.receivers = s.receivers ∧ s'.maxmsg = s.maxmsg ∧
      s'.requests = update s.requests t { s.requests t with message := none, priority := prio } ∧
      s'.fate = update s.fate m.name .stored := by
  have count : s.count + 1 = (stored ++ [m]).length := by rw [length_append, core.count]; rfl
  have bytes : s.bytes + m.size = ((stored ++ [m]).map size).sum := by
    rw [core.bytes]
    simp
  have waits : (s.fate m.name).taken = false := by rw [core.fates.holds t m mine, sends]; rfl
  dsimp only [System.messageEnqueue]
  rw [mine]
  dsimp only
  cases got : s.priorities.find m.priority with
  | some p =>
    have mem := (core.tree.unique.find_iff.mp got).1
    refine ⟨_, (s.requests t).priority, rfl, ?_, rfl, rfl, rfl, rfl, rfl⟩
    exact {
      tree := core.tree.append_found got
      spares := (core.spares.setBucket _ _ fun u ne spare => core.foreign mem ne spare).update (fun _ spare => spare) nofun
      fates := core.fates.store mine rfl
      count := count
      bytes := bytes
      history := .accepted core.history
      logged := core.logged.accept waits }
  | none =>
    cases spare : (s.requests t).priority with
    | none => exact absurd (provided.resolve_left (fun wrong => wrong got)) (fun wrong => wrong spare)
    | some p =>
      obtain ⟨lo, empty⟩ := core.spares.empty t p spare
      refine ⟨_, none, rfl, ?_, rfl, rfl, rfl, rfl, rfl⟩
      have given : Spares (update s.requests t { s.requests t with message := none, priority := none })
          s.buckets s.nextBucket := core.spares.update nofun nofun
      exact {
        tree := core.tree.append_spare got (core.spares.keyed t m p sends mine spare) empty lo
        spares := given.setBucket _ _ fun u ne at_ eq => by
          by_cases here : u = t
          · subst here
            rw [update_self] at at_
            cases at_
          · rw [update_of_ne here] at at_
            exact here (core.spares.apart u t ne p at_ spare eq)
        fates := core.fates.store mine rfl
        count := count
        bytes := bytes
        history := .accepted core.history
        logged := core.logged.accept waits }

theorem messageDequeue (wait : stored ≠ []) (empty : (s.requests t).message = none) (gets : (s.requests t).sends = false) :
    ∃ s' rest m prio, s.messageDequeue t = some s' ∧ s'.Core rest ∧ stored.length = rest.length + 1 ∧
      s'.senders = s.senders ∧ s'.receivers = s.receivers ∧ s'.maxmsg = s.maxmsg ∧
      s'.requests = update s.requests t { s.requests t with message := some m, priority := prio } ∧
      m ∈ stored ∧ s'.fate = update s.fate m.name (.held t) := by
  obtain ⟨p, m, more, rest, last, mem, bucket, takes, drained, left⟩ := core.tree.take wait
  have len : stored.length = rest.length + 1 := takes.perm.length_eq
  have sizes : (stored.map size).sum = m.size + (rest.map size).sum := by
    rw [(takes.perm.map size).sum_eq, map_cons, sum_cons]
  have count : s.count - 1 = rest.length := by rw [core.count]; omega
  have bytes : s.bytes - m.size = (rest.map size).sum := by rw [core.bytes]; omega
  have spares := core.spares.setBucket p.owner more fun u ne spare => core.foreign mem ne spare
  have stays : (s.fate m.name).accepted = true := by
    rw [core.fates.storedIn m (takes.perm.mem_iff.mpr mem_cons_self)]
    rfl
  unfold System.messageDequeue
  rw [last]
  dsimp only
  rw [bucket]
  dsimp only
  by_cases last_ : more = []
  · obtain ⟨_, gone, tree⟩ := drained last_
    rw [if_pos last_, gone]
    refine ⟨_, rest, m, some p, rfl, ?_, len, rfl, rfl, rfl, rfl, takes.perm.mem_iff.mpr mem_cons_self, rfl⟩
    exact {
      tree := tree
      spares := spares.give rfl (by rw [update_self, last_]) (core.tree.below p mem) le_rfl
        (fun u ne spare => core.foreign mem ne spare) fun m sends => by
          rw [gets] at sends
          cases sends
      fates := core.fates.obtain takes.perm empty rfl gets
      count := count
      bytes := bytes
      history := .taken core.history takes
      logged := core.logged.take stays }
  · rw [if_neg last_]
    refine ⟨_, rest, m, _, rfl, ?_, len, rfl, rfl, rfl, rfl, takes.perm.mem_iff.mpr mem_cons_self, rfl⟩
    exact {
      tree := left last_
      spares := spares.update (fun _ spare => spare) fun m node sends => by
        rw [gets] at sends
        cases sends
      fates := core.fates.obtain takes.perm empty rfl gets
      count := count
      bytes := bytes
      history := .taken core.history takes
      logged := core.logged.take stays }

end

/-- A message that meets a waiting receiver is accepted and taken at once. -/
theorem handOff (core : s.Core []) (mine : (s.requests t).message = some m) (sends : (s.requests t).sends = true) (empty : (s.requests u).message = none)
    (gets : (s.requests u).sends = false) : (s.handOff t u m).Core [] := by
  have differ : u ≠ t := by
    rintro rfl
    rw [mine] at empty
    cases empty
  have stored := core.fates.store (r := { s.requests t with message := none }) mine rfl
  have taken := stored.obtain (t := u) (r := { s.requests u with message := some m }) (List.Perm.refl _)
    (by rwa [update_of_ne differ]) rfl gets
  rw [update_idem] at taken
  have given : Spares (update s.requests t { s.requests t with message := none }) s.buckets s.nextBucket :=
    core.spares.update (fun _ spare => spare) nofun
  have got : Spares (update (update s.requests t { s.requests t with message := none }) u
      { s.requests u with message := some m }) s.buckets s.nextBucket := by
    refine given.update (fun node spare => ?_) fun x node sends => ?_
    · rw [update_of_ne differ]
      exact spare
    · rw [gets] at sends
      cases sends
  exact requestComplete {
    tree := core.tree
    spares := got
    fates := taken
    count := core.count
    bytes := core.bytes
    history := .taken (.accepted core.history) ⟨[], [], rfl, rfl, nofun, nofun⟩
    logged := by
      have accepted := core.logged.accept (m := m) (by rw [core.fates.holds t m mine, sends]; rfl)
      have took := accepted.take (m := m) (t := u) (by rw [update_self]; rfl)
      rwa [update_idem] at took }

theorem begin (core : s.Core stored) (empty : (s.requests t).message = none) (gets : r.message = some m)
    (sends : r.sends = true) (bare : r.priority = none) (name : m.name = s.nextName) : System.Core { s with
      requests := update s.requests t r, fate := update s.fate m.name (.outgoing t)
      nextName := s.nextName + 1 } stored where
  tree := core.tree
  spares := core.spares.update (fun node spare => by rw [bare] at spare; cases spare)
    fun x node _ _ spare => by rw [bare] at spare; cases spare
  fates := core.fates.begin empty gets sends name
  count := core.count
  bytes := core.bytes
  history := core.history
  logged := core.logged.quiet (by rw [core.fates.fresh m.name name.ge]; rfl) (by rw [core.fates.fresh m.name name.ge]; rfl)

end System.Core
end BoarOS.Mqueue
