import BoarOS.Rwlock.Runs

namespace BoarOS.Rwlock
open Function List Rwlock.System
open Wait (WaitPhase kernelWaitGenerationMax)

/-! Each step keeps the system consistent, and does not trap under the discipline of its callers. -/

variable {ord : Nat → Rank} {s s' : System} {task : Task} {t u l slot edge i lim : Nat}
  {write tryOnly : Bool}

theorem view_running (run : task.phase = .running) : task.view l = guardView task.locks l := by
  simp only [Task.view, run]

theorem view_queued (queued : task.view l = .queued kind i) :
    task.granted = false ∧ ∃ slot stage, task.phase = .waiting slot l kind i stage := by
  have guarded : ∀ held, guardView held l ≠ .queued kind i := fun held => by
    unfold guardView
    split <;> simp
  unfold Task.view at queued
  split at queued
  · exact absurd queued (guarded _)
  next slot lock kind' index' stage ph =>
    split at queued
    next eq =>
      split at queued
      · cases queued
      next ungranted =>
        cases queued
        exact ⟨by simpa using ungranted, slot, stage, by rw [ph, eq]⟩
    · exact absurd queued (guarded _)
  · split at queued
    · cases queued
    · exact absurd queued (guarded _)

theorem view_stage {k : Task} {stage stage' : Stage} (ph : task.phase = .waiting slot l write i stage)
    (phase' : k.phase = .waiting slot l write i stage') (locks : k.locks = task.locks)
    (granted : k.granted = task.granted) (l' : Nat) : k.view l' = task.view l' := by
  simp only [Task.view, ph, phase', locks, granted]

namespace Task.Ok

theorem above_of_top (ok : task.Ok ord) (top : task.locks.head?.any (fun outer => (ord outer.lock).rejects (ord l)) = false) :
    ∀ guard ∈ task.locks, (ord guard.lock).position < (ord l).position := by
  have sorted := ok.sorted
  cases held : task.locks with
  | nil => exact fun _ mem => by cases mem
  | cons first rest =>
    rw [held] at top sorted
    have lo : (ord first.lock).position < (ord l).position := rejects_eq_false.mp (by simpa using top)
    intro guard mem
    rcases mem_cons.mp mem with rfl | older
    · exact lo
    · exact lt_trans ((pairwise_cons.mp sorted).1 guard older) lo

theorem restage (ok : task.Ok ord) {k : Task} {stage stage' : Stage} (ph : task.phase = .waiting slot l write i stage)
    (phase' : k.phase = .waiting slot l write i stage') (locks : k.locks = task.locks)
    (good : stage'.Ok k.granted k.token k.record) : k.Ok ord := by
  refine ⟨by rw [locks]; exact ok.sorted, fun lock eq => ?_, by rwa [phase']⟩
  rw [phase', ← show task.phase.lock? = (Phase.waiting slot l write i stage').lock? by rw [ph]; rfl] at eq
  rw [locks]
  exact ok.above lock eq

theorem stage (ok : task.Ok ord) {stage : Stage} (ph : task.phase = .waiting slot l write i stage) :
    stage.Ok task.granted task.token task.record := by
  have r := ok.record
  rw [ph] at r
  exact r

theorem finished (ok : task.Ok ord) (run : task.phase = .running) : task.record.phase = .finished := by
  have r := ok.record
  rw [run] at r
  exact r

end Task.Ok

namespace Consistent

theorem prepare_some (inv : Consistent ord lim s) (fin : (s.tasks t).record.phase = .finished)
    (new : s.waitGeneration < kernelWaitGenerationMax) : s.prepare t ≠ none := by
  have older := inv.generations t
  have unused : ¬ ((s.tasks t).record.generation = kernelWaitGenerationMax ∨ s.waitGeneration = kernelWaitGenerationMax) := by omega
  simp [prepare, fin, unused]

theorem prepare_eq (prepares : s.prepare t = some prep) : prep = { s.setTask t { s.tasks t with
      token := s.waitGeneration + 1
      record := ⟨s.waitGeneration + 1, .prepared⟩ } with waitGeneration := s.waitGeneration + 1 } := by
  unfold prepare at prepares
  split at prepares
  · cases prepares
  split at prepares
  · cases prepares
  cases prepares
  rfl

theorem acquire_spec (inv : Consistent ord lim s) (lt : t < lim) (run : (s.tasks t).phase = .running)
    (acquires : s.acquire ord t slot l write tryOnly = some s') : Consistent ord lim s' := by
  have ok := inv.tasks t
  dsimp only [acquire] at acquires
  split at acquires
  · cases acquires
  split at acquires
  · cases acquires
  rename_i top
  have lo := ok.above_of_top (by simpa using top)
  have away : (s.tasks t).view l = .away := by
    rw [view_running run]
    exact guardView_none lo
  split at acquires
  next busy =>
    split at acquires
    · cases acquires
      exact inv
    -- The waiter is queued with a token of the new generation.
    obtain ⟨_, prepares, rfl⟩ := Option.map_eq_some_iff.mp acquires
    have shape := prepare_eq prepares
    subst shape
    have later := inv.withGeneration (Nat.le_succ s.waitGeneration)
    have waits : Consistent ord lim ((setLock { s with waitGeneration := s.waitGeneration + 1 } l
        ((s.locks l).register ⟨t, write⟩)).setTask t { s.tasks t with
          token := s.waitGeneration + 1
          record := ⟨s.waitGeneration + 1, .prepared⟩
          granted := false
          phase := .waiting slot l write (s.locks l).arrivals.length (.parking (s.waitGeneration + 1)) }) :=
      later.setBoth
      ⟨⟨ok.sorted, fun lock eq guard mem => by cases eq; exact lo guard mem,
        rfl, Nat.succ_ne_zero _, rfl, .inl ⟨rfl, rfl⟩⟩, fun large => absurd lt (not_lt.mpr large),
        le_rfl⟩
      (by
        have reg := (inv.locks l).register away busy
        simpa [Task.view] using reg)
      (fun l' other => by simp [Task.view, run, other.symm])
    simpa [System.setTask, System.setLock] using waits
  next free =>
    obtain ⟨_, takes, rfl⟩ := Option.map_eq_some_iff.mp acquires
    refine inv.setBoth ⟨⟨pairwise_cons.mpr ⟨lo, ok.sorted⟩, fun _ none => (by cases none), ok.finished run⟩,
        fun large => absurd lt (not_lt.mpr large), inv.generations t⟩ ?_ fun l' other => ?_
    · have entered := (inv.locks l).take away (by simpa using free) takes
      simpa [Task.view, setLock, guardView_cons] using entered
    rw [view_running rfl, view_running run]
    dsimp only [setLock]
    rw [guardView_cons, if_neg fun eq => other eq.symm]

theorem acquire_safe (inv : Consistent ord lim s) (small : t < lim) (few : lim ≤ uint32Max)
    (run : (s.tasks t).phase = .running) (empty : ∀ guard ∈ (s.tasks t).locks, guard.slot ≠ slot)
    (ordered : ∀ guard ∈ (s.tasks t).locks, (ord guard.lock).rejects (ord l) = false)
    (new : s.waitGeneration < kernelWaitGenerationMax) : s.acquire ord t slot l write tryOnly ≠ none := by
  have away : (s.tasks t).view l = .away := by
    rw [view_running run]
    exact guardView_none fun guard mem => rejects_eq_false.mp (ordered guard mem)
  have unused : (s.tasks t).locks.any (fun guard => guard.slot = slot) = false := by
    simpa using empty
  have top : (s.tasks t).locks.head?.any (fun outer => (ord outer.lock).rejects (ord l)) = false := by
    cases held : (s.tasks t).locks with
    | nil => rfl
    | cons first rest => simpa using ordered first (by rw [held]; exact (.head _))
  simp only [acquire, unused, top, Bool.false_eq_true, if_false]
  split
  · split
    · simp
    · simpa [registerWaiter] using inv.prepare_some ((inv.tasks t).finished run) new
  have room := inv.readers_lt (l := l) small (by rw [away]; rfl)
  have unfilled : (s.locks l).readers ≠ uint32Max := by omega
  cases write <;> simp [Lock.take, unfilled]

section
variable (inv : Consistent ord lim s)
include inv

theorem fits_restage {stage stage' : Stage} (ph : (s.tasks t).phase = .waiting slot l write i stage)
    (phase' : task.phase = .waiting slot l write i stage') (locks : task.locks = (s.tasks t).locks)
    (good : stage'.Ok task.granted task.token task.record) (gen : task.record.generation ≤ s.waitGeneration) : Fits ord lim s t task := by
  refine ⟨(inv.tasks t).restage ph phase' locks good, fun large => ?_, gen⟩
  have idle := (inv.bound t large).2
  rw [ph] at idle
  cases idle

theorem restage {stage stage' : Stage} (ph : (s.tasks t).phase = .waiting slot l write i stage)
    (phase' : task.phase = .waiting slot l write i stage') (locks : task.locks = (s.tasks t).locks)
    (granted : task.granted = (s.tasks t).granted) (good : stage'.Ok task.granted task.token task.record)
    (gen : task.record.generation ≤ s.waitGeneration) : Consistent ord lim (s.setTask t task) :=
  inv.setTask (inv.fits_restage ph phase' locks good gen) (view_stage ph phase' locks granted)

theorem park_spec (parks : s.step ord (.park t) = some out) : ∃ s', out = some s' ∧ Consistent ord lim s' := by
  have older := inv.generations t
  dsimp only [step] at parks
  split at parks
  next slot l write i parked ph =>
    obtain ⟨copy, pos, eq, waits⟩ := (inv.tasks t).stage ph
    subst copy
    have matching : (s.tasks t).record.tokenMatches (s.tasks t).token = true := by
      rcases waits with ⟨waits, _⟩ | waits <;> simp [Record.tokenMatches, pos, eq, waits]
    rw [if_neg (by simp [matching])] at parks
    rcases waits with ⟨prep, ungranted⟩ | notified
    · rw [prep] at parks
      cases parks
      exact ⟨_, rfl, inv.restage ph rfl rfl rfl ⟨rfl, pos, eq, .inl ⟨rfl, ungranted⟩⟩ older⟩
    rw [notified] at parks
    cases parks
    exact ⟨_, rfl, inv.restage ph rfl rfl rfl ⟨rfl, pos, eq, notified⟩ older⟩
  · cases parks

theorem resume_spec (resumes : s.step ord (.resume t) = some out) : ∃ s', out = some s' ∧ Consistent ord lim s' := by
  dsimp only [step] at resumes
  split at resumes
  next slot l write i parked ph =>
    split at resumes
    next notified =>
      obtain ⟨copy, pos, eq, _⟩ := (inv.tasks t).stage ph
      cases resumes
      exact ⟨_, rfl, inv.restage ph rfl rfl rfl ⟨copy, pos, eq, notified⟩ (inv.generations t)⟩
    · cases resumes
  · cases resumes

theorem finish_spec (finishes : s.step ord (.finish t) = some out) : ∃ s', out = some s' ∧ Consistent ord lim s' := by
  dsimp only [step] at finishes
  split at finishes
  next slot l write i parked ph =>
    obtain ⟨copy, pos, eq, notified⟩ := (inv.tasks t).stage ph
    subst copy
    rw [if_neg (by simp [Record.tokenMatches, pos, eq, notified])] at finishes
    cases finishes
    exact ⟨_, rfl, inv.restage ph rfl rfl rfl rfl (inv.generations t)⟩
  · cases finishes

end

theorem view_waiting (ph : task.phase = .waiting slot l write i stage) :
    task.view l = if task.granted then .granted write i else .queued write i := by
  simp only [Task.view, ph, if_true]

theorem recheck_spec (inv : Consistent ord lim s) (rechecks : s.step ord (.recheck t) = some (some s')) : Consistent ord lim s' := by
  have ok := inv.tasks t
  dsimp only [System.step] at rechecks
  split at rechecks
  next slot l write i ph =>
    have above := ok.above l (by rw [ph]; rfl)
    have fin : (s.tasks t).record.phase = .finished := ok.stage ph
    split at rechecks
    next granted =>
      split at rechecks
      · cases rechecks
      cases rechecks
      refine inv.setBoth ⟨⟨pairwise_cons.mpr ⟨above, ok.sorted⟩, fun _ none => (by cases none), fin⟩,
          fun large => ?_, inv.generations t⟩ ?_ fun l' other => ?_
      · have idle := (inv.bound t large).2
        rw [ph] at idle
        cases idle
      · have settled := (inv.locks l).settle (t := t) (by rw [view_waiting ph, if_pos granted])
        simpa [Task.view, System.setLock, guardView_cons] using settled
      · simp only [Task.view, ph, System.setLock, if_neg other.symm, guardView_cons]
    obtain ⟨_, prepares, rfl⟩ := Option.map_eq_some_iff.mp (Option.some_inj.mp rechecks)
    have shape := prepare_eq prepares
    subst shape
    rename_i ungranted
    have later := inv.withGeneration (Nat.le_succ s.waitGeneration)
    have waits : Consistent ord lim (System.setTask { s with waitGeneration := s.waitGeneration + 1 } t
        { s.tasks t with
          token := s.waitGeneration + 1
          record := ⟨s.waitGeneration + 1, .prepared⟩
          phase := .waiting slot l write i (.parking (s.waitGeneration + 1)) }) :=
      later.restage ph rfl rfl rfl ⟨rfl, Nat.succ_ne_zero _, rfl, .inl ⟨rfl, by simpa using ungranted⟩⟩ le_rfl
    simpa [System.setTask] using waits
  · cases rechecks

theorem recheck_safe (inv : Consistent ord lim s) (new : s.waitGeneration < kernelWaitGenerationMax) :
    s.step ord (.recheck t) ≠ some none := by
  dsimp only [step]
  split
  next slot l write i ph =>
    split
    next granted =>
      have notQueued : ∀ waiter ∈ (s.locks l).pending, waiter.owner ≠ t := by
        rintro waiter mem rfl
        obtain ⟨_, queued⟩ := ((inv.locks l).queue.members waiter).mp mem
        rw [view_waiting ph, if_pos granted] at queued
        cases queued
      rw [if_neg]
      · simp
      rintro (first | last)
      · obtain ⟨waiter, mem, owns⟩ := Option.map_eq_some_iff.mp first
        exact notQueued waiter (mem_of_head? mem) owns
      · obtain ⟨waiter, mem, owns⟩ := Option.map_eq_some_iff.mp last
        exact notQueued waiter (mem_of_getLast? mem) owns
    · have fin : (s.tasks t).record.phase = .finished := (inv.tasks t).stage ph
      simpa using inv.prepare_some fin new
  · simp

theorem notify_spec (inv : Consistent ord lim s) (tok : Nat) :
    Consistent ord lim (s.setTask t { s.tasks t with record := (s.tasks t).record.notify tok }) := by
  have ok := inv.tasks t
  refine inv.setTask ⟨⟨ok.sorted, ok.above, ?_⟩, inv.bound t, ?_⟩ fun _ => rfl
  · have r := ok.record
    cases ph : (s.tasks t).phase with
    | waiting slot l write i stage =>
      rw [ph] at r
      simpa [ph] using Stage.Ok.notify r
    | running | handoff =>
      rw [ph] at r
      rcases (s.tasks t).record.notify_cases tok with eq | ⟨_, waits⟩
      · simpa [ph, eq] using r
      · simp [r] at waits
  · rw [Record.notify_generation]
    exact inv.generations t

theorem handing_view (ph : task.phase = .handoff l edge) : task.view l = .handing edge := by
  simp only [Task.view, ph, if_true]

theorem woken_fits (inv : Consistent ord lim s) (queued : (s.tasks u).view l = .queued kind i) : Fits ord lim s u
      { s.tasks u with granted := true, record := (s.tasks u).record.notify (s.tasks u).token } := by
  obtain ⟨_, _, _, ph⟩ := view_queued queued
  refine inv.fits_restage ph ph rfl ((inv.tasks u).stage ph).grant ?_
  rw [Record.notify_generation]
  exact inv.generations u

theorem woken_view (queued : task.view l = .queued kind i) (l' : Nat) :
    { task with granted := true, record := rc }.view l' = if l' = l then .granted kind i else task.view l' := by
  obtain ⟨_, _, _, ph⟩ := view_queued queued
  rcases eq_or_ne l' l with rfl | other
  · simp [Task.view, ph]
  · simp [Task.view, ph, other, other.symm]

section
variable (inv : Consistent ord lim s)
include inv

section
variable (ph : (s.tasks t).phase = .handoff l edge)
include ph

theorem ended_fits : Fits ord lim s t { s.tasks t with phase := .running } := by
  have ok := inv.tasks t
  have r := ok.record
  rw [ph] at r
  refine ⟨⟨ok.sorted, fun _ none => (by cases none), r⟩, fun large => ?_, inv.generations t⟩
  have idle := (inv.bound t large).2
  rw [ph] at idle
  cases idle

theorem ended_view (l' : Nat) : { s.tasks t with phase := .running }.view l' = if l' = l then .away else (s.tasks t).view l' := by
  have lo := (inv.tasks t).above l (by rw [ph]; rfl)
  rcases eq_or_ne l' l with rfl | other
  · rw [if_pos rfl]
    exact guardView_none lo
  · simp [Task.view, ph, other, other.symm]

theorem granted_apart {next : Waiter} (grants : (s.locks l).grant = some (next, lock)) : t ≠ next.owner := by
  rintro rfl
  have queued := (inv.locks l).granted_was_queued grants
  rw [handing_view ph] at queued
  cases queued

theorem grant_next {next : Waiter} (grants : (s.locks l).grant = some (next, lock))
    (goes : lock.stops edge next = false) : Consistent ord lim ((s.setLock l lock).wake next.owner) ∧
      (((s.setLock l lock).wake next.owner).tasks t).phase = .handoff l edge := by
  have queued := (inv.locks l).granted_was_queued grants
  refine ⟨?_, by simpa [System.wake, System.setTask, System.setLock, inv.granted_apart ph grants] using ph⟩
  have woken : Consistent ord lim ((s.setLock l lock).setTask next.owner { s.tasks next.owner with
      granted := true
      record := (s.tasks next.owner).record.notify (s.tasks next.owner).token }) := by
    refine inv.setBoth (inv.woken_fits queued) ?_ fun l' other => by rw [woken_view queued, if_neg other]
    rw [woken_view queued, if_pos rfl]
    exact (inv.locks l).grant_next (handing_view ph) grants goes
  exact woken

theorem segment_spec (runs : segment t l edge n s = some s') : Consistent ord lim s' := by
  induction n generalizing s with
  | zero =>
    cases runs
    exact inv
  | succ n ih =>
    unfold System.segment at runs
    split at runs
    · cases runs
    rename_i next lock grants
    have queued := (inv.locks l).granted_was_queued grants
    have apart := inv.granted_apart ph grants
    have fits := inv.woken_fits queued
    split at runs
    · -- The last grant and the end of the hand-off change two tasks and one lock.
      rename_i stop
      cases runs
      have ends := (inv.locks l).grant_last (handing_view ph) grants stop
      have new := inv.replace (Function.forall_update_iff (update s.tasks next.owner _) (fun u task => Fits ord lim s u task)
          |>.mpr ⟨inv.ended_fits ph, fun u _ => (Function.forall_update_iff s.tasks
            fun u task => Fits ord lim s u task).mpr ⟨fits, fun u _ => inv.fits u⟩ u⟩)
        (by
          rw [views_update, views_update, inv.ended_view ph, woken_view queued, if_pos rfl, if_pos rfl]
          exact ends)
        fun l' away u => by
          rcases eq_or_ne u t with rfl | ne
          · rw [update_self, inv.ended_view ph, if_neg away]
          rw [update_of_ne ne]
          rcases eq_or_ne u next.owner with rfl | last
          · rw [update_self, woken_view queued, if_neg away]
          · rw [update_of_ne last]
      simpa [System.setLock, System.wake, System.setTask, apart] using new
    next goes =>
      obtain ⟨woken, still⟩ := inv.grant_next ph grants (by simpa using goes)
      exact ih woken still runs

end

theorem segment_safe (few : lim ≤ uint32Max) (ph : (s.tasks t).phase = .handoff l edge) : segment t l edge n s ≠ none := by
  induction n generalizing s with
  | zero => simp [System.segment]
  | succ n ih =>
    have hands := handing_view ph
    have lt : t < lim := inv.active_lt fun idle => by
      have run := idle.2
      rw [ph] at run
      cases run
    have room := inv.readers_lt (l := l) lt (by rw [hands]; rfl)
    obtain ⟨_, _, grants⟩ := (inv.locks l).grant_some hands (by omega)
    unfold System.segment
    rw [grants]
    dsimp only
    split
    · simp
    next goes =>
      obtain ⟨woken, still⟩ := inv.grant_next ph grants (by simpa using goes)
      exact ih woken still

end

theorem popped_view {guard : Guard} {prev : List Guard} (ok : task.Ok ord) (run : task.phase = .running)
    (held : task.locks = guard :: prev) (l' : Nat) : { task with locks := prev }.view l' = if l' = guard.lock then .away else task.view l' := by
  have sorted := ok.sorted
  rw [held] at sorted
  have post : ({ task with locks := prev } : Task).view l' = guardView prev l' := view_running run
  rw [post, view_running run, held, guardView_cons]
  rcases eq_or_ne l' guard.lock with rfl | other
  · rw [if_pos rfl]
    exact guardView_none (pairwise_cons.mp sorted).1
  · rw [if_neg other, if_neg other.symm]

theorem release_cases (inv : Consistent ord lim s) (run : (s.tasks t).phase = .running) {guard : Guard} {prev : List Guard}
    (held : (s.tasks t).locks = guard :: prev) : ∃ res, s.release t t guard.slot = res ∧ ((∃ s', res = some s' ∧ Consistent ord lim s') ∨
        ∃ begun edge, Consistent ord lim begun ∧ (begun.tasks t).phase = .handoff guard.lock edge ∧
          res = segment t guard.lock edge 16 begun) := by
  refine ⟨_, rfl, ?_⟩
  have ok := inv.tasks t
  have sorted := ok.sorted
  rw [held] at sorted
  have holds : (s.tasks t).view guard.lock = .holds guard.write := by
    rw [view_running run, held, guardView_cons, if_pos rfl]
  have view := popped_view ok run held
  have bound : lim ≤ t → False := fun large => by
    have idle := (inv.bound t large).1
    rw [held] at idle
    cases idle
  obtain ⟨dropped, drops, hs, q, handing⟩ := (inv.locks guard.lock).drop holds
  -- The lock is left as it is unless nobody holds it and somebody waits.
  have rest : (dropped.handsOff = true → dropped.pending = []) → Consistent ord lim
      ((s.setLock guard.lock dropped).setTask t { s.tasks t with locks := prev }) := by
    intro leaves
    refine inv.setBoth ⟨⟨(pairwise_cons.mp sorted).2, fun lock acquiring => ?_, ?_⟩,
      fun large => (bound large).elim, inv.generations t⟩ ?_ fun l' other => by rw [view, if_neg other]
    · rw [run] at acquiring
      cases acquiring
    · simpa [run] using ok.finished run
    rw [view, if_pos rfl]
    refine ⟨hs, q, handing, fun unwritten unread unowned => ?_⟩
    by_contra waits
    exact waits (leaves (by simp [Lock.handsOff, unwritten, unread, unowned, waits]))
  unfold release
  rw [held]
  simp only [ne_eq, not_true_eq_false, or_self, if_false, drops]
  split
  next edge last =>
    split
    next begins =>
      right
      simp only [Lock.handsOff, Bool.and_eq_true, decide_eq_true_eq] at begins
      obtain ⟨⟨⟨unwritten, unread⟩, unowned⟩, _⟩ := begins
      refine ⟨_, _, ?_, ?_, rfl⟩
      · have begun : Consistent ord lim ((s.setLock guard.lock (dropped.beginHandoff t)).setTask t
            { s.tasks t with locks := prev, phase := .handoff guard.lock edge.owner }) := by
          refine inv.setBoth ⟨⟨(pairwise_cons.mp sorted).2, fun lock eq other mem => ?_, ?_⟩,
            fun large => (bound large).elim, inv.generations t⟩ ?_ fun l' other => ?_
          · cases eq
            exact (pairwise_cons.mp sorted).1 other mem
          · simpa using ok.finished run
          · have started := handing.begin (t := t) unowned unwritten unread last
            rw [update_idem] at started
            have hands : ({ s.tasks t with
                locks := prev, phase := .handoff guard.lock edge.owner } : Task).view guard.lock =
                .handing edge.owner := handing_view rfl
            rw [hands]
            refine ⟨?_, ?_, started, fun _ _ rests => by cases rests⟩
            · have held := hs.update (t := t) (show (View.handing edge.owner).held = _ by
                rw [update_self]; rfl)
              rwa [update_idem] at held
            · have queued := q.update (t := t) (by simp) (fun _ _ => (by simp : View.handing edge.owner ≠ _)) (by simp)
              rwa [update_idem] at queued
          · have pre := view l'
            rw [if_neg other] at pre
            rw [← pre]
            simp [Task.view, run, other.symm]
        simpa [System.setTask, System.setLock] using begun
      · simp [System.setTask]
    next leaves =>
      left
      refine ⟨_, rfl, ?_⟩
      simpa [System.setTask, System.setLock] using rest fun begins => absurd begins leaves
  next empty =>
    left
    refine ⟨_, rfl, ?_⟩
    simpa [System.setTask, System.setLock] using rest fun _ => getLast?_eq_none_iff.mp empty

theorem release_spec (inv : Consistent ord lim s) (run : (s.tasks t).phase = .running)
    (releases : s.release t u slot = some s') : Consistent ord lim s' := by
  cases held : (s.tasks t).locks with
  | nil => simp [release, held] at releases
  | cons guard prev =>
    have own : u = t ∧ guard.slot = slot := by
      by_contra ne
      simp [release, held, ne] at releases
    obtain ⟨rfl, rfl⟩ := own
    obtain ⟨_, eq, ⟨_, done, good⟩ | ⟨_, _, good, ph, runs⟩⟩ := inv.release_cases run held
    · rw [eq, done] at releases
      cases releases
      exact good
    · rw [eq, runs] at releases
      exact good.segment_spec ph releases

theorem release_safe (inv : Consistent ord lim s) (few : lim ≤ uint32Max) (run : (s.tasks t).phase = .running)
    (top : (s.tasks t).locks.head?.map Guard.slot = some slot) : s.release t t slot ≠ none := by
  cases held : (s.tasks t).locks with
  | nil =>
    rw [held] at top
    cases top
  | cons guard prev =>
    rw [held] at top
    obtain rfl : guard.slot = slot := by simpa using top
    obtain ⟨_, eq, ⟨_, done, _⟩ | ⟨_, _, good, ph, runs⟩⟩ := inv.release_cases run held
    · rw [eq, done]
      simp
    · rw [eq, runs]
      exact good.segment_safe few ph

end Consistent

theorem Consistent.step (inv : Consistent ord lim s) {step : Step} (lt : step.task < lim)
    (ok : s.step ord step = some (some s')) : Consistent ord lim s' := by
  have given := ok
  cases step with
  | acquire t slot l write tryOnly =>
    dsimp only [System.step] at ok
    split at ok
    next run =>
      exact inv.acquire_spec lt run (Option.some_inj.mp ok)
    · cases ok
  | park t =>
    obtain ⟨next, eq, good⟩ := inv.park_spec given
    cases eq
    exact good
  | resume t =>
    obtain ⟨next, eq, good⟩ := inv.resume_spec given
    cases eq
    exact good
  | finish t =>
    obtain ⟨_, eq, good⟩ := inv.finish_spec given
    cases eq
    exact good
  | recheck t => exact inv.recheck_spec given
  | notify t tok =>
    cases ok
    exact inv.notify_spec tok
  | release t u slot =>
    dsimp only [System.step] at ok
    split at ok
    next run =>
      exact inv.release_spec run (Option.some_inj.mp ok)
    · cases ok
  | handoff t =>
    dsimp only [System.step] at ok
    split at ok
    next l edge ph =>
      split at ok
      · cases ok
      · exact inv.segment_spec ph (Option.some_inj.mp ok)
    · cases ok
  | otherPrepare =>
    dsimp only [System.step] at ok
    split at ok
    · cases ok
    cases ok
    exact inv.withGeneration (Nat.le_succ _)

theorem System.Reachable.consistent (run : s.Reachable ord lim) : Consistent ord lim s := by
  induction run with
  | initial => exact consistent_initial
  | step _ lt ok ih => exact ih.step lt ok

end BoarOS.Rwlock
