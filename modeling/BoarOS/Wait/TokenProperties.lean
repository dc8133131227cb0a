import BoarOS.Wait.TokenRuns

namespace BoarOS.Wait
open State

/-! # The token protocol over whole runs

A notification is decided by its compare-exchange, or by the section it enters when that
exchange has found a committed word.
-/

variable {s s' : State} {step : Step} {gen reason why n : Nat}

def State.notification (s : State) : Step → Option (Nat × Nat)
  | .notify _ generation reason | .notifyLocked _ generation reason => some (generation, reason)
  | .slow n => match s.notifiers n with
    | .slow generation reason => some (generation, reason)
    | _ => none
  | .slowCas n => match s.notifiers n with
    | .slowCas generation reason => some (generation, reason)
    | _ => none
  | .parkSelf => match s.owner with
    | .parkSelf reason => some (s.token, reason)
    | _ => none
  | .parkSelfCas => match s.owner with
    | .parkSelfCas reason => some (s.token, reason)
    | _ => none
  | _ => none

def State.ended (after : State) : Step → Prop
  | .notify n _ _ | .notifyLocked n _ _ | .slow n | .slowCas n => after.notifiers n = .idle
  | .parkSelf | .parkSelfCas => after.owner = .parkRead
  | _ => True

def Owner.parking : Owner → Prop
  | .idle | .running => False
  | _ => True

def State.run (s : State) : List Step → Option State
  | [] => some s
  | step :: rest => (s.step step).join.bind fun after => after.run rest

/-- The steps that bring a parked task back: its own, the scheduler's, and the end of a section that another has begun. -/
def Step.resumes : Step → Prop
  | .parkSelf | .parkSelfCas | .parkRead | .parkCommit | .switchFinish | .dispatch | .parkResume | .slowCas _ => True
  | _ => False

/-- The notification is the one of its generation, and a committed task is made ready by it. -/
structure State.Effect (s after : State) (generation reason : Nat) : Prop where
  effects : after.effects = (generation, reason) :: s.effects
  word : after.word = ⟨generation, .notified, reason⟩
  onCpu : s.word.phase = .committed → s.onCpu = true → after.readyPending = true ∧ after.readies = s.readies
  away : s.word.phase = .committed → s.onCpu = false → after.ready = true ∧ after.readies = s.readies + 1

theorem State.Consistent.matches_own (inv : s.Consistent) (own : s.word.generation = gen)
    (live : s.word.phase ≠ .finished) : s.tokenMatches gen = true := by
  have begun := inv.begun live
  rw [own] at begun
  simp only [tokenMatches, own, beq_self_eq_true, begun, live, ne_eq, not_false_eq_true, decide_true, Bool.and_self]

theorem State.publish_effect (prep : s.word.phase = .prepared) : s.Effect (s.publish gen why) gen why :=
  ⟨rfl, rfl, fun done => absurd (prep.symm.trans done) (by nofun), fun done => absurd (prep.symm.trans done) (by nofun)⟩

theorem State.notifyCommitted_effect (s : State) (gen why : Nat) : s.Effect (s.notifyCommitted gen why) gen why := by
  cases cpu : s.onCpu with
  | true =>
    rw [notifyCommitted_onCpu cpu]
    exact ⟨rfl, rfl, fun _ _ => ⟨rfl, rfl⟩, fun _ wrong => absurd (cpu.symm.trans wrong) (by nofun)⟩
  | false =>
    rw [notifyCommitted_away cpu]
    exact ⟨rfl, rfl, fun _ wrong => absurd (cpu.symm.trans wrong) (by nofun), fun _ _ => ⟨rfl, rfl⟩⟩

theorem State.Consistent.lockedNotify_effect (inv : s.Consistent) (own : s.word.generation = gen)
    (waits : s.word.phase = .prepared ∨ s.word.phase = .committed)
    (ended : (s.lockedNotify n gen why).notifiers n = .idle) : s.Effect (s.lockedNotify n gen why) gen why := by
  have live : s.word.phase ≠ .finished := by rcases waits with ph | ph <;> rw [ph] <;> nofun
  have own_ := inv.matches_own own live
  unfold State.lockedNotify State.notifyRead at ended ⊢
  rw [if_neg (by simp [own_])] at ended ⊢
  rcases waits with ph | ph
  · rw [ph] at ended
    have wait : Function.update s.notifiers n (.slowCas gen why) n = .idle := ended
    rw [Function.update_self] at wait
    cases wait
  · rw [ph]
    exact { s.notifyCommitted_effect gen why with }

theorem State.Consistent.notifyCas_effect (inv : s.Consistent) (own : s.word.generation = gen)
    (prep : s.word.phase = .prepared) : s.notifyCas gen why = some (s.publish gen why) := by
  unfold State.notifyCas
  rw [if_pos ((s.word.pack_expected inv.reason gen).mpr ⟨own, prep, inv.plain (.inl prep)⟩)]

theorem State.Consistent.waits_prepared (waits : s.word.phase = .prepared ∨ s.word.phase = .committed)
    (holds : s.word.phase = .prepared ∨ s.word.phase = .notified) : s.word.phase = .prepared := by
  rcases waits with prep | done
  · exact prep
  rcases holds with prep | notified
  · exact prep
  · cases done.symm.trans notified

section
variable (inv : s.Consistent)
include inv

theorem State.Consistent.first (ran : s.step step = some (some s')) (works : s.notification step = some (gen, why))
    (own : s.word.generation = gen) (waits : s.word.phase = .prepared ∨ s.word.phase = .committed)
    (ended : s'.ended step) : s.Effect s' gen why := by
  have live : s.word.phase ≠ .finished := by rcases waits with ph | ph <;> rw [ph] <;> nofun
  have unnotified : s.word.phase ≠ .notified := by rcases waits with ph | ph <;> rw [ph] <;> nofun
  cases step with
  | notify n g r =>
    cases works
    dsimp only [step] at ran
    have slow (pend : some (some (s.setNotifier n (.slow gen why))) = some (some s')) : False := by
      cases pend
      have wait : Function.update s.notifiers n (.slow gen why) n = .idle := ended
      rw [Function.update_self] at wait
      cases wait
    split at ran
    · cases ran
    split at ran
    · split at ran
      next hit =>
        cases ran
        exact publish_effect ((s.word.pack_expected inv.reason gen).mp hit).2.1
      · rw [if_neg (by simp only [own, live, unnotified, ne_eq, not_true, or_self, not_false_eq_true])] at ran
        exact (slow ran).elim
    · exact (slow ran).elim
  | notifyLocked n g r =>
    cases works
    dsimp only [step] at ran
    split at ran
    · cases ran
    cases ran
    exact inv.lockedNotify_effect own waits ended
  | slow n =>
    unfold step at ran
    unfold notification at works
    dsimp only at ran works
    split at ran
    next g r pos =>
      rw [pos] at works
      cases works
      split at ran
      · cases ran
      cases ran
      exact inv.lockedNotify_effect own waits ended
    · cases ran
  | slowCas n =>
    unfold step at ran
    unfold notification at works
    dsimp only at ran works
    split at ran
    next g r pos =>
      rw [pos] at works
      cases works
      have holds := (inv.exchanging n gen why pos).2.2.1
      have prep := Consistent.waits_prepared waits holds
      rw [inv.notifyCas_effect own prep] at ran
      cases ran
      exact { publish_effect prep with }
    · cases ran
  | parkSelf =>
    unfold step at ran
    unfold notification at works
    dsimp only at ran works
    split at ran
    next r pos =>
      rw [pos] at works
      cases works
      have ok := inv.owner
      rw [pos] at ok
      have prep := Consistent.waits_prepared waits ok.1.phase
      unfold State.notifyRead at ran
      rw [if_neg (by simp [inv.matches_own own live]), prep] at ran
      cases ran
      cases ended
    · cases ran
  | parkSelfCas =>
    unfold step at ran
    unfold notification at works
    dsimp only at ran works
    split at ran
    next r pos =>
      rw [pos] at works
      cases works
      have ok := inv.owner
      rw [pos] at ok
      have prep := Consistent.waits_prepared waits ok.1.phase
      rw [inv.notifyCas_effect own prep] at ran
      cases ran
      exact { publish_effect prep with }
    · cases ran
  | _ => cases works

/-- With the domain free or its own, the task goes on by itself and with the scheduler. -/
theorem State.Consistent.returns_free (notified : s.word.phase = .notified) (parks : s.owner.parking)
    (free : s.lock = none ∨ s.lock = some .owner) : ∃ steps after, s.run steps = some after ∧ (∀ step ∈ steps, step.resumes) ∧
      after.owner = .running ∧ after.returns = (s.word.generation, s.word.reason) :: s.returns := by
  have ok := inv.owner
  have unexpected : s.word.pack ≠ (expected s.token).pack := fun eq => by
    cases notified.symm.trans ((s.word.pack_expected inv.reason s.token).mp eq).2.1
  cases place : s.owner with
  | idle | running =>
    rw [place] at parks
    exact parks.elim
  | parkSelf why =>
    rw [place] at ok
    have read : s.notifyRead s.token why = .done s := by
      unfold State.notifyRead
      rw [notified]
      split <;> rfl
    refine ⟨[.parkSelf, .parkRead], { s with owner := .running, lock := none, returns := (s.token, s.word.reason) :: s.returns },
      ?_, by simp [Step.resumes], rfl, ?_⟩
    · simp [State.run, step, place, read, notified, State.parkReturns]
    · rw [ok.1.token]
  | parkSelfCas why =>
    rw [place] at ok
    refine ⟨[.parkSelfCas, .parkRead], { s with owner := .running, lock := none, returns := (s.token, s.word.reason) :: s.returns },
      ?_, by simp [Step.resumes], rfl, ?_⟩
    · simp [State.run, step, place, State.notifyCas, unexpected, notified, State.parkReturns, ok.1.token.symm]
    · rw [ok.1.token]
  | parkRead =>
    rw [place] at ok
    refine ⟨[.parkRead], s.parkReturns, ?_, by simp [Step.resumes], rfl, ?_⟩
    · simp [State.run, step, place, notified]
    · rw [State.parkReturns, ok.1.token]
  | parkCommit =>
    rw [place] at ok
    refine ⟨[.parkCommit], s.parkReturns, ?_, by simp [Step.resumes], rfl, ?_⟩
    · simp [State.run, step, place, notified, unexpected, ok.1.token.symm]
    · rw [State.parkReturns, ok.1.token]
  | switching =>
    rw [place] at ok
    obtain ⟨token, cpu, _, unheld, _, kind⟩ := ok
    have pending : s.readyPending = true := by
      rcases kind with ⟨wrong, _⟩ | ⟨_, pending⟩
      · cases notified.symm.trans wrong
      · exact pending
    have lock := free.resolve_right unheld
    refine ⟨[.switchFinish, .dispatch, .parkResume], { s with
      onCpu := true, ready := false, readyPending := false, readies := s.readies + 1, owner := .running
      returns := (s.token, s.word.reason) :: s.returns }, ?_, by simp [Step.resumes], rfl, ?_⟩
    · simp [State.run, step, place, lock, cpu, pending, notified]
    · rw [token]
  | offCpu =>
    rw [place] at ok
    obtain ⟨token, _, _, unheld, kind⟩ := ok
    have ready : s.ready = true := by
      rcases kind with ⟨wrong, _⟩ | ⟨_, ready, _⟩
      · cases notified.symm.trans wrong
      · exact ready
    have lock := free.resolve_right unheld
    refine ⟨[.dispatch, .parkResume], { s with ready := false, onCpu := true, owner := .running, returns := (s.token, s.word.reason) :: s.returns },
      ?_, by simp [Step.resumes], rfl, ?_⟩
    · simp [State.run, step, place, lock, ready, notified]
    · rw [token]
  | resumed =>
    rw [place] at ok
    refine ⟨[.parkResume], { s with owner := .running, returns := (s.token, s.word.reason) :: s.returns },
      ?_, by simp [Step.resumes], rfl, ?_⟩
    · simp [State.run, step, place, notified, ok.1.onCpu]
    · rw [ok.1.token]

/-- A park that has been notified comes back with the reason, whoever is in the domain. -/
theorem State.Consistent.returns (notified : s.word.phase = .notified) (parks : s.owner.parking) :
    ∃ steps after, s.run steps = some after ∧ (∀ step ∈ steps, step.resumes) ∧
      after.owner = .running ∧ after.returns = (s.word.generation, s.word.reason) :: s.returns := by
  cases held : s.lock with
  | none => exact inv.returns_free notified parks (.inl held)
  | some holder =>
    cases holder with
    | owner => exact inv.returns_free notified parks (.inr held)
    | notifier n =>
      -- the notifier finds the word notified and leaves
      obtain ⟨g, r, at_⟩ := inv.holder n held
      have own := (inv.exchanging n g r at_).2.1
      have unexpected : s.word.pack ≠ (expected g).pack := fun eq => by
        cases notified.symm.trans ((s.word.pack_expected inv.reason g).mp eq).2.1
      have left : s.step (.slowCas n) = some (some { s.setNotifier n .idle with lock := none }) := by
        simp [step, at_, State.notifyCas, unexpected, own, notified]
      have safe := inv.safe (.slowCas n)
      rw [left] at safe
      obtain ⟨steps, after, ran, resumes, back, result⟩ := Consistent.returns_free safe notified parks (.inl rfl)
      refine ⟨.slowCas n :: steps, after, ?_, List.forall_mem_cons.mpr ⟨trivial, resumes⟩, back, result⟩
      rw [State.run, left]
      exact ran

end

theorem State.Reachable.run (run : s.Reachable) (ran : s.run steps = some s') : s'.Reachable := by
  induction steps generalizing s with
  | nil =>
    cases ran
    exact run
  | cons step rest ih =>
    obtain ⟨_, stepped, ran⟩ := Option.bind_eq_some_iff.mp ran
    exact ih (.step run (Option.join_eq_some_iff.mp stepped)) ran

end BoarOS.Wait
