import BoarOS.Rwlock.Steps

namespace BoarOS.Rwlock
open List Option
open Wait (WaitPhase kernelWaitGenerationMax)

/-! Exclusion, order and trap freedom of the locks over every interleaving. -/

variable {order : Nat → Rank} {s s' : System} {task : Task} {t u l slot edge i limit : Nat}
  {write tryOnly : Bool}

namespace System

/-- A task holds a lock by a guard on its chain or by a granted waiter that has not returned. -/
def Holds (s : System) (t l : Nat) (write : Bool) : Prop :=
  (∃ guard ∈ (s.tasks t).locks, guard.lock = l ∧ guard.write = write) ∨
    (s.tasks t).granted = true ∧ ∃ slot index stage, (s.tasks t).phase = .waiting slot l write index stage

/-- A waiter of the task is queued on a lock, at a place in the order of arrival. -/
def Queued (s : System) (t l : Nat) (write : Bool) (index : Nat) : Prop :=
  (s.tasks t).granted = false ∧ ∃ slot stage, (s.tasks t).phase = .waiting slot l write index stage

end System

/-- What the callers of a section owe: `acquire` gets an empty guard and a lock above every lock held, a guard is
released by its owner in last-in first-out order, and the generations of tokens are not used up. -/
def Step.Disciplined (order : Nat → Rank) (s : System) : Step → Prop
  | .acquire t slot l _ _ =>
    (∀ guard ∈ (s.tasks t).locks, guard.slot ≠ slot) ∧ (∀ guard ∈ (s.tasks t).locks, (order guard.lock).rejects (order l) = false) ∧
      s.waitGeneration < kernelWaitGenerationMax
  | .recheck _ => s.waitGeneration < kernelWaitGenerationMax
  | .release t u slot => u = t ∧ (s.tasks t).locks.head?.map Guard.slot = some slot
  | _ => True

theorem guardView_holds (sorted : held.Pairwise fun inner outer => (order outer.lock).position < (order inner.lock).position) :
    guardView held l = .holds write ↔ ∃ guard ∈ held, guard.lock = l ∧ guard.write = write := by
  induction held with
  | nil => simp [guardView]
  | cons first rest ih =>
    obtain ⟨above, tail⟩ := pairwise_cons.mp sorted
    rw [guardView_cons]
    split
    next eq =>
      constructor
      · intro holds
        cases holds
        exact ⟨first, .head _, eq, rfl⟩
      rintro ⟨guard, mem, lock, rfl⟩
      rcases mem_cons.mp mem with rfl | older
      · rfl
      have less := above guard older
      rw [lock, eq] at less
      exact absurd less (lt_irrefl _)
    next ne =>
      rw [ih tail]
      constructor
      · rintro ⟨guard, mem, rest⟩
        exact ⟨guard, .tail _ mem, rest⟩
      rintro ⟨guard, mem, lock, writes⟩
      rcases mem_cons.mp mem with rfl | older
      · exact absurd lock ne
      · exact ⟨guard, older, lock, writes⟩

theorem guardView_held (holds : (guardView held l).held = some write) : guardView held l = .holds write := by
  unfold guardView at holds ⊢
  split
  next guard got =>
    rw [got] at holds
    simpa [View.held] using holds
  next none =>
    rw [none] at holds
    cases holds

theorem not_on_chain (ok : task.Ok order) (ph : task.phase.lock? = some l) (write : Bool) :
    ¬ ∃ guard ∈ task.locks, guard.lock = l ∧ guard.write = write := by
  rintro ⟨guard, mem, eq, _⟩
  have less := ok.above l ph guard mem
  rw [eq] at less
  exact lt_irrefl _ less

namespace Consistent

theorem holds_iff (inv : Consistent order limit s) : s.Holds t l write ↔ ((s.tasks t).view l).held = some write := by
  have ok := inv.tasks t
  have chain : (guardView (s.tasks t).locks l).held = some write ↔ ∃ guard ∈ (s.tasks t).locks, guard.lock = l ∧ guard.write = write := by
    rw [← guardView_holds ok.sorted]
    exact ⟨guardView_held, fun eq => by rw [eq]; rfl⟩
  unfold System.Holds Task.view
  cases phase : (s.tasks t).phase with
  | running => simp [chain]
  | waiting slot lock kind pos stage =>
    rcases eq_or_ne lock l with rfl | ne
    · have out := not_on_chain ok (show (s.tasks t).phase.lock? = some lock by rw [phase]; rfl) write
      cases granted : (s.tasks t).granted
      · simp [out, View.held]
      · simp [out, View.held]
    · simp [ne, chain]
  | handoff lock edge =>
    rcases eq_or_ne lock l with rfl | ne
    · have out := not_on_chain ok (show (s.tasks t).phase.lock? = some lock by rw [phase]; rfl) write
      simp [out, View.held]
    · simp [ne, chain]

theorem queued_iff : s.Queued t l write i ↔ (s.tasks t).view l = .queued write i := by
  constructor
  · rintro ⟨ungranted, _, _, ph⟩
    rw [view_waiting ph, ungranted]
    rfl
  · exact view_queued

end Consistent

namespace Consistent
section
variable (inv : Consistent order limit s)
include inv

theorem exclusive (writes : s.Holds t l true) (holds : s.Holds u l write) : u = t ∧ write = true := by
  have hs := (inv.locks l).holders
  rw [inv.holds_iff] at writes holds
  have writer := (hs.writes t).mpr writes
  cases write with
  | true =>
    have again := (hs.writes u).mpr holds
    rw [writer] at again
    cases again
    exact ⟨rfl, rfl⟩
  | false =>
    have unread := hs.exclusive (by simp [writer])
    rw [unread] at hs
    exact absurd holds (hs.none_reads u)

theorem place (ph : (s.tasks t).phase = .waiting slot l write i stage) :
    (s.locks l).arrivals[i]? = some ⟨t, write⟩ ∧ i ∉ (s.locks l).returns ∧
      ((s.tasks t).granted = true ↔ i < (s.locks l).grants.length) := by
  have q := (inv.locks l).queue
  have view := view_waiting ph
  cases granted : (s.tasks t).granted with
  | true =>
    rw [granted] at view
    obtain ⟨got, new⟩ := q.grantedAt t write i view
    refine ⟨?_, new, fun _ => (List.getElem?_eq_some_iff.mp got).1, fun _ => rfl⟩
    rw [q.history]
    exact Queue.getElem?_append_of_some got
  | false =>
    rw [granted] at view
    obtain ⟨_, got⟩ := q.queuedAt t write i view
    refine ⟨got, fun mem => ?_, fun granted => (by cases granted), fun old => ?_⟩
    · have old := q.returned.2 i mem
      omega
    · omega

theorem idle (free : ∀ t write, ¬ s.Holds t l write) (rests : (s.locks l).handoffOwner = none) : (s.locks l).pending = [] := by
  have hs := (inv.locks l).holders
  refine (inv.locks l).idle ?_ ?_ rests
  · cases writer : (s.locks l).writer with
    | none => rfl
    | some t => exact absurd (inv.holds_iff.mpr ((hs.writes t).mp writer)) (free t true)
  obtain ⟨list, _, len, ms⟩ := hs.reads
  cases list with
  | nil => exact len.symm
  | cons t rest =>
    exact absurd (inv.holds_iff.mpr ((ms t).mp (.head _))) (free t false)

theorem safe (few : limit < 2 ^ 32) {step : Step} (small : step.task < limit)
    (disciplined : step.Disciplined order s) : s.step order step ≠ some none := by
  have room : limit ≤ uint32Max := by
    unfold uint32Max
    omega
  intro traps
  have given := traps
  unfold System.step at traps
  cases step with
  | acquire t slot l write tryOnly =>
    obtain ⟨empty, lt, new⟩ := disciplined
    dsimp only at traps
    split at traps
    next run =>
      exact inv.acquire_safe small room run empty lt new (some_inj.mp traps)
    · cases traps
  | park t =>
    obtain ⟨next, eq, _⟩ := inv.park_spec given
    cases eq
  | resume t =>
    obtain ⟨next, eq, _⟩ := inv.resume_spec given
    cases eq
  | finish t =>
    obtain ⟨_, eq, _⟩ := inv.finish_spec given
    cases eq
  | recheck t => exact inv.recheck_safe disciplined given
  | notify t tok => cases traps
  | release t u slot =>
    obtain ⟨rfl, top⟩ := disciplined
    dsimp only at traps
    split at traps
    next run =>
      exact inv.release_safe room run top (some_inj.mp traps)
    · cases traps
  | handoff t =>
    dsimp only at traps
    split at traps
    next l edge ph =>
      have owns := ((inv.locks l).handing.handing t edge (handing_view ph)).1
      rw [if_neg (by simp [owns])] at traps
      exact inv.segment_safe room ph (some_inj.mp traps)
    · cases traps
  | otherPrepare =>
    dsimp only at traps
    split at traps <;> cases traps

end
end Consistent

end BoarOS.Rwlock
