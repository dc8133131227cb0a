import BoarOS.RecordLock.Semantics

namespace BoarOS.RecordLock
open Data List Locks

/-! # Waiting for traditional locks (`fs/files/locks.c`)

A request that has to wait records an edge to the owner of the lock that the search reported. The edge stays until
its task runs again, woken or not. A step is one pass through the loop of `kernel_files_fcntl_lock` or one release,
with interrupts off. -/

def kernelEDEADLK : Int := 35

/-- A `struct lock_wait_edge`; `asleep` is the registration of its task on the queue of the inode. -/
structure WaitEdge (State Owner : Type) where
  task : Nat
  state : State
  owner : Owner
  blocker : Option Owner
  start : Int
  stop : Int
  type : LockType
  asleep : Bool
deriving DecidableEq

structure Waiting (State Owner : Type) where
  locks : Locks State Owner
  edges : List (WaitEdge State Owner)

variable {State Owner : Type}

/-- Each edge leads from its owner to its blocker, and the next one starts there. -/
def Linked : Option Owner → List (WaitEdge State Owner) → Option Owner → Prop
  | first, [], last => first = last
  | first, edge :: rest, last => some edge.owner = first ∧ Linked edge.blocker rest last

theorem Linked.append (start : Linked first front mid) (rest : Linked mid back last) : Linked first (front ++ back) last := by
  induction front generalizing first with
  | nil =>
    cases start
    exact rest
  | cons edge front ih => exact ⟨start.1, ih start.2⟩

theorem Linked.split (whole : Linked first (front ++ back) last) : ∃ mid, Linked first front mid ∧ Linked mid back last := by
  induction front generalizing first with
  | nil => exact ⟨first, rfl, whole⟩
  | cons edge front ih =>
    obtain ⟨mid, start, rest⟩ := ih whole.2
    exact ⟨mid, ⟨whole.1, start⟩, rest⟩

theorem Linked.without {first : Option Owner} {chain edges : List (WaitEdge State Owner)} {new : WaitEdge State Owner}
    (link : Linked first chain (some new.owner)) (among : ∀ edge ∈ chain, edge = new ∨ edge ∈ edges) :
    ∃ shorter, Linked first shorter (some new.owner) ∧ shorter.length ≤ chain.length ∧ ∀ edge ∈ shorter, edge ∈ edges ∧ edge ∈ chain := by
  induction chain generalizing first with
  | nil => exact ⟨[], link, le_rfl, nofun⟩
  | cons edge rest ih =>
    rcases among edge (.head _) with rfl | old
    · exact ⟨[], link.1.symm, Nat.zero_le _, nofun⟩
    obtain ⟨shorter, chain, len, ms⟩ := ih link.2 fun k mem =>
      among k (.tail _ mem)
    refine ⟨edge :: shorter, ⟨link.1, chain⟩, Nat.succ_le_succ len, fun k mem => ?_⟩
    rcases mem_cons.mp mem with rfl | later
    · exact ⟨old, .head _⟩
    · exact ⟨(ms k later).1, .tail _ (ms k later).2⟩

variable [DecidableEq State] [DecidableEq Owner]

def Locks.reported (locks : Locks State Owner) (state : State) (owner : Owner) (start stop : Int) (type : LockType) : LockConflict Owner :=
  kernelRecordLockGet owner 0 (locks.roots state) start stop type
    { start := 0, stop := 0, owner := none, pid := 0, type := .unlock, kind := 0 }

/-- The test that keeps an edge in the search: its recorded blocker is the one reported now. -/
def Locks.trusts (locks : Locks State Owner) (edge : WaitEdge State Owner) : Bool :=
  let current := locks.reported edge.state edge.owner edge.start edge.stop edge.type
  current.kind == 0 && current.owner == edge.blocker

def deadlocked (locks : Locks State Owner) (edges : List (WaitEdge State Owner)) (requester : Owner) : Nat → Option Owner → Bool
  | 0, _ => false
  | levels + 1, owner =>
    edges.any fun edge => some edge.owner == owner && locks.trusts edge &&
      (edge.blocker == some requester || deadlocked locks edges requester levels edge.blocker)

def wakeAll (state : State) (edges : List (WaitEdge State Owner)) : List (WaitEdge State Owner) :=
  edges.map fun edge => if edge.state = state then { edge with asleep := false } else edge

structure LockRequest (State Owner : Type) where
  task : Nat
  state : State
  owner : Owner
  pid : Int
  start : Int
  stop : Int
  type : LockType

def LockRequest.edge (request : LockRequest State Owner) (locks : Locks State Owner) : WaitEdge State Owner :=
  { task := request.task, state := request.state, owner := request.owner
    blocker := (locks.reported request.state request.owner request.start request.stop request.type).owner
    start := request.start, stop := request.stop, type := request.type
    asleep := (locks.reported request.state request.owner request.start request.stop request.type).owner.isSome }

/-- One pass of `F_SETLK` or, with `wait`, of `F_SETLKW`; no result means that the request waits. -/
def Waiting.setLock (s : Waiting State Owner) (request : LockRequest State Owner) (wait : Bool)
    (outcomes : List (Option UInt64)) : Option (Option Int × Waiting State Owner) :=
  match s.locks.call (.set request.state request.owner 0 request.pid request.start request.stop request.type
      outcomes) with
  | none => none
  | some (result, locks) =>
    if result = 0 then some (some 0, { locks := locks, edges := wakeAll request.state s.edges })
    else if result ≠ -kernelEAGAIN ∨ wait = false then some (some result, { s with locks := locks })
    else
      let found := locks.reported request.state request.owner request.start request.stop request.type
      if found.kind = 0 ∧ found.owner.isSome ∧ deadlocked locks s.edges request.owner 10 found.owner then
        some (some (-kernelEDEADLK), { s with locks := locks })
      else some (none, { locks := locks, edges := request.edge locks :: s.edges })

inductive WaitStep (State Owner : Type) where
  | setLock (request : LockRequest State Owner) (wait : Bool) (outcomes : List (Option UInt64))
  | release (state : State) (owner : Owner)
  | interrupt (task : Nat)
  | resume (task : Nat)

/-- A release wakes the waiters if it removed a lock; a signal wakes one task; a task that runs again removes
its edge. -/
def Waiting.step (s : Waiting State Owner) : WaitStep State Owner → Option (Option Int × Waiting State Owner)
  | .setLock request wait outcomes => s.setLock request wait outcomes
  | .release state owner =>
    match s.locks.call (.release state owner 0) with
    | none => none
    | some (result, locks) =>
      let changed := (s.locks.owners owner 0).any fun lock => lock.state = state
      some (some result, { locks := locks, edges := if changed then wakeAll state s.edges else s.edges })
  | .interrupt task =>
    some (some 0, { s with
      edges := s.edges.map fun edge => if edge.task = task then { edge with asleep := false } else edge })
  | .resume task => some (some 0, { s with edges := s.edges.eraseP fun edge => edge.task == task && !edge.asleep })

/-- Requests are those `range_from_flock` lets through, with nodes that the heap has free. -/
def WaitStep.Allowed (s : Waiting State Owner) : WaitStep State Owner → Prop
  | .setLock request _ outcomes =>
    (Request.set request.state request.owner 0 request.pid request.start request.stop request.type outcomes).Allowed s.locks
  | _ => True

inductive Waiting.Reachable : Waiting State Owner → Prop where
  | empty : Waiting.Reachable { locks := Locks.empty, edges := [] }
  | step {s after : Waiting State Owner} {step : WaitStep State Owner} {result : Option Int} :
      Waiting.Reachable s → step.Allowed s → s.step step = some (result, after) → Waiting.Reachable after

omit [DecidableEq State] in
theorem deadlocked_of_linked {locks : Locks State Owner} {edges chain : List (WaitEdge State Owner)} {requester : Owner}
    {first : Option Owner} {levels : Nat} (link : Linked first chain (some requester)) (nonempty : chain ≠ []) (len : chain.length ≤ levels)
    (trusted : ∀ edge ∈ chain, edge ∈ edges ∧ locks.trusts edge = true) : deadlocked locks edges requester levels first = true := by
  induction chain generalizing first levels with
  | nil => exact absurd rfl nonempty
  | cons edge rest ih =>
    cases levels with
    | zero => simp at len
    | succ levels =>
      obtain ⟨mem, trust⟩ := trusted edge (.head _)
      rw [deadlocked, any_eq_true]
      refine ⟨edge, mem, ?_⟩
      rw [Bool.and_eq_true, Bool.and_eq_true, Bool.or_eq_true, beq_iff_eq, beq_iff_eq]
      refine ⟨⟨link.1, trust⟩, ?_⟩
      by_cases last : rest = []
      · subst last
        exact .inl link.2
      refine .inr (ih link.2 last ?_ fun k member => trusted k (.tail _ member))
      rw [length_cons] at len
      omega

/-- A cycle of at most ten requests that are all asleep. -/
structure SleepingCycle (s : Waiting State Owner) (owner : Owner) (cycle : List (WaitEdge State Owner)) : Prop where
  nonempty : cycle ≠ []
  short : cycle.length ≤ 10
  linked : Linked (some owner) cycle (some owner)
  asleep : ∀ edge ∈ cycle, edge ∈ s.edges ∧ edge.asleep = true

structure Waiting.Consistent (s : Waiting State Owner) : Prop where
  safe : Safe s.locks
  traditional : ∀ state, ∀ lock ∈ (s.locks.roots state).flatten, lock.kind = 0
  trusted : ∀ edge ∈ s.edges, edge.asleep = true → s.locks.trusts edge = true
  acyclic : ∀ owner cycle, ¬ SleepingCycle s owner cycle

section
variable {s after s' : Waiting State Owner} {locks : Locks State Owner} {state st : State}
    {request req : LockRequest State Owner}
  {outcomes : List (Option UInt64)}

omit [DecidableEq State] in
theorem Locks.trusts_congr {k : Locks State Owner} {edge : WaitEdge State Owner}
    (eq : k.roots edge.state = locks.roots edge.state) : k.trusts edge = locks.trusts edge := by
  rw [trusts, trusts, reported, reported, eq]

omit [DecidableEq Owner] in
theorem mem_wakeAll (mem : edge ∈ wakeAll st edges) (asleep : edge.asleep = true) : edge ∈ edges ∧ edge.state ≠ st := by
  obtain ⟨old, oldIn, eq⟩ := mem_map.mp mem
  by_cases here : old.state = st
  · rw [if_pos here] at eq
    rw [← eq] at asleep
    cases asleep
  · rw [if_neg here] at eq
    exact ⟨eq ▸ oldIn, eq ▸ here⟩

omit [DecidableEq State] in
theorem Waiting.Consistent.quiet (inv : s.Consistent) (safe : Safe s'.locks)
    (traditional : ∀ st, ∀ lock ∈ (s'.locks.roots st).flatten, lock.kind = 0)
    (edges : ∀ edge ∈ s'.edges, edge.asleep = true →
      edge ∈ s.edges ∧ s'.locks.roots edge.state = s.locks.roots edge.state) : s'.Consistent where
  safe := safe
  traditional := traditional
  trusted edge mem asleep := by
    obtain ⟨pre, eq⟩ := edges edge mem asleep
    rw [trusts_congr eq]
    exact inv.trusted edge pre asleep
  acyclic owner cycle sleeping := by
    refine inv.acyclic owner cycle ⟨sleeping.nonempty, sleeping.short, sleeping.linked, fun edge mem => ?_⟩
    obtain ⟨now, asleep⟩ := sleeping.asleep edge mem
    exact ⟨(edges edge now asleep).1, asleep⟩

theorem Waiting.Consistent.called (inv : s.Consistent)
    (ok : (Request.set req.state req.owner 0 req.pid req.start req.stop req.type outcomes).Allowed s.locks)
    (called : s.locks.call (.set req.state req.owner 0 req.pid req.start req.stop req.type outcomes) = some (res, locks)) :
    Safe locks ∧ (∀ st, ∀ lock ∈ (locks.roots st).flatten, lock.kind = 0) ∧ (∀ pos, pos ≠ req.state → locks.roots pos = s.locks.roots pos) ∧
      (res ≠ 0 → locks = s.locks) ∧
      (res = -kernelEAGAIN → ∃ lock ∈ (s.locks.roots req.state).flatten, Blocks req.owner 0 req.start req.stop req.type lock) := by
  have safe : Safe locks := by
    obtain ⟨_, _, done, next⟩ := inv.safe.call ok
    rw [called] at done
    cases done
    exact next
  obtain ⟨range, distinct, unused⟩ := ok
  rw [call, Option.map_eq_some_iff] at called
  obtain ⟨⟨_, t⟩, done, put⟩ := called
  cases put
  have unchanged : ∀ {code : Int}, some (code, s.locks.table req.state req.owner 0) = some (res, t) →
      s.locks.put req.state req.owner 0 t = s.locks ∧ res = code := by
    intro code eq
    cases eq
    exact ⟨s.locks.put_table, rfl⟩
  rcases inv.safe.set_cases req.pid range.2 distinct unused with ⟨locking, blocked, answered⟩ | ⟨_, edit, wide, answered⟩
  · obtain ⟨eq, code⟩ := unchanged (answered.symm.trans done)
    rw [eq]
    exact ⟨inv.safe, inv.traditional, fun _ _ => rfl, fun _ => rfl, fun _ => blocked⟩
  rcases answered with ⟨_, answered⟩ | ⟨_, _, _, _, _, _, _, _, _, committed, answered⟩
  · obtain ⟨eq, code⟩ := unchanged (answered.symm.trans done)
    rw [eq, code]
    exact ⟨inv.safe, inv.traditional, fun _ _ => rfl, fun _ => rfl, fun wrong => by cases wrong⟩
  rw [answered] at done
  cases done
  refine ⟨safe, fun pos lock mem => ?_, fun pos ne => put_roots_other _ _ ne, fun wrong => absurd rfl wrong, fun wrong => by cases wrong⟩
  by_cases here : pos = req.state
  · rw [here, put_roots_same] at mem
    rcases committed.edited.origin (inv.safe.file req.state) mem with ⟨old, oldIn, eq, _⟩ | ⟨_, rfl⟩
    · exact eq.2.trans (inv.traditional _ old oldIn)
    · exact (owned_iff.mp committed.covers.mine).2
  · rw [put_roots_other _ _ here] at mem
    exact inv.traditional pos lock mem

omit [DecidableEq Owner] in
theorem releaseOwned_unchanged {next : List (Lock State Owner)} {t : Table State Owner}
    (away : ∀ lock ∈ next, lock.state ≠ st) : releaseOwned st next t = some t := by
  induction next with
  | nil => rfl
  | cons lock next ih =>
    rw [releaseOwned, if_neg (away lock mem_cons_self)]
    exact ih fun k mem => away k (.tail _ mem)

namespace Waiting.Consistent

omit [DecidableEq State] in
/-- A refused request is told the traditional owner of a lock that blocks it. -/
theorem reported (inv : s.Consistent) (blocked : ∃ lock ∈ (s.locks.roots req.state).flatten,
      Blocks req.owner 0 req.start req.stop req.type lock) :
    ∃ blocker, (s.locks.reported req.state req.owner req.start req.stop req.type).owner = some blocker ∧ blocker ≠ req.owner ∧
      (s.locks.reported req.state req.owner req.start req.stop req.type).kind = 0 := by
  obtain ⟨_, mem, blocks⟩ := blocked
  rw [Locks.reported, kernelRecordLockGet]
  cases got : conflict req.owner 0 req.start req.stop req.type (s.locks.roots req.state) with
  | none => exact absurd blocks (not_blocks_of_conflict_none (inv.safe.file _).searchable got mem)
  | some holder =>
    obtain ⟨holderIn, holderBlocks⟩ := conflict_blocks (inv.safe.file _).searchable got
    have kind := inv.traditional _ holder holderIn
    refine ⟨holder.owner, rfl, fun eq => ?_, kind⟩
    rcases (blocks_iff.mp holderBlocks).2.2.1 with otherOwner | other
    · exact otherOwner eq
    · exact other kind

omit [DecidableEq State] in
/-- A chain of sleeping requests from its blocker back to its owner is found before a request waits. -/
theorem detects (inv : s.Consistent) {chain : List (WaitEdge State Owner)}
    (blocked : ∃ lock ∈ (s.locks.roots req.state).flatten, Blocks req.owner 0 req.start req.stop req.type lock)
    (link : Linked (s.locks.reported req.state req.owner req.start req.stop req.type).owner chain (some req.owner))
    (short : chain.length ≤ 10) (asleep : ∀ edge ∈ chain, edge ∈ s.edges ∧ edge.asleep = true) :
    deadlocked s.locks s.edges req.owner 10 (s.locks.reported req.state req.owner req.start req.stop req.type).owner = true := by
  obtain ⟨_, owner, ne, _⟩ := inv.reported blocked
  refine deadlocked_of_linked link ?_ short fun edge mem =>
    ⟨(asleep edge mem).1, inv.trusted edge (asleep edge mem).1 (asleep edge mem).2⟩
  rintro rfl
  rw [owner] at link
  exact ne (Option.some.inj link)

theorem sleep (inv : s.Consistent) (blocked : ∃ lock ∈ (s.locks.roots req.state).flatten,
      Blocks req.owner 0 req.start req.stop req.type lock)
    (clear : deadlocked s.locks s.edges req.owner 10 (s.locks.reported req.state req.owner req.start req.stop req.type).owner = false) :
    Waiting.Consistent { s with edges := req.edge s.locks :: s.edges } where
  safe := inv.safe
  traditional := inv.traditional
  trusted edge mem asleep := by
    rcases mem_cons.mp mem with rfl | old
    · obtain ⟨_, _, _, kind⟩ := inv.reported blocked
      simp only [trusts, LockRequest.edge]
      simp [kind]
    · exact inv.trusted edge old asleep
  acyclic owner cycle sleeping := by
    have ms : ∀ edge ∈ cycle, edge = req.edge s.locks ∨ edge ∈ s.edges := fun edge mem =>
      mem_cons.mp (sleeping.asleep edge mem).1
    by_cases uses : req.edge s.locks ∈ cycle
    · obtain ⟨front, back, rfl⟩ := append_of_mem uses
      obtain ⟨_, start, rest⟩ := sleeping.linked.split
      have closing : Linked (req.edge s.locks).blocker (back ++ front) (some (req.edge s.locks).owner) := by
        rw [rest.1]
        exact rest.2.append start
      have onCycle : ∀ edge ∈ back ++ front, edge ∈ front ++ req.edge s.locks :: back := by
        intro edge mem
        rcases mem_append.mp mem with later | earlier
        · exact mem_append_right _ (.tail _ later)
        · exact mem_append_left _ earlier
      obtain ⟨_, link, len, among⟩ := closing.without fun edge mem => ms edge (onCycle edge mem)
      have short := sleeping.short
      rw [length_append, length_cons] at short
      rw [length_append] at len
      have got := inv.detects blocked link (by omega) fun edge mem => by
        obtain ⟨old, onPath⟩ := among edge mem
        exact ⟨old, (sleeping.asleep edge (onCycle edge onPath)).2⟩
      rw [clear] at got
      cases got
    · refine inv.acyclic owner cycle ⟨sleeping.nonempty, sleeping.short, sleeping.linked, fun edge mem => ?_⟩
      refine ⟨(ms edge mem).resolve_left ?_, (sleeping.asleep edge mem).2⟩
      rintro rfl
      exact uses mem

theorem setLock (inv : s.Consistent) (ok : (Request.set req.state req.owner 0 req.pid req.start req.stop req.type outcomes).Allowed s.locks)
    (ran : s.setLock req wait outcomes = some (res, s')) : s'.Consistent := by
  rw [Waiting.setLock] at ran
  split at ran
  · cases ran
  rename_i answer locks called
  obtain ⟨safe, traditional, rest, failed, refused⟩ := inv.called ok called
  split at ran
  · cases ran
    refine inv.quiet safe traditional fun edge mem asleep => ?_
    obtain ⟨old, away⟩ := mem_wakeAll mem asleep
    exact ⟨old, rest _ away⟩
  rename_i unsuccessful
  have eq := failed unsuccessful
  subst eq
  split at ran
  · cases ran
    exact inv.quiet safe traditional fun edge mem _ => ⟨mem, rfl⟩
  rename_i waits
  simp only [not_or, not_not] at waits
  obtain ⟨_, owner, _, kind⟩ := inv.reported (refused waits.1)
  dsimp only at ran
  split at ran
  · cases ran
    exact inv.quiet safe traditional fun edge mem _ => ⟨mem, rfl⟩
  rename_i clear
  cases ran
  refine inv.sleep (refused waits.1) (Bool.eq_false_iff.mpr fun got => clear ⟨kind, ?_, got⟩)
  rw [owner]
  rfl

theorem step (inv : s.Consistent) {step : WaitStep State Owner} {res : Option Int}
    (ok : step.Allowed s) (ran : s.step step = some (res, s')) : s'.Consistent := by
  cases step with
  | setLock req wait outcomes => exact inv.setLock ok ran
  | interrupt task =>
    cases ran
    refine inv.quiet inv.safe inv.traditional fun edge mem asleep => ?_
    obtain ⟨old, oldIn, eq⟩ := mem_map.mp mem
    split at eq
    · rw [← eq] at asleep
      cases asleep
    · exact ⟨eq ▸ oldIn, rfl⟩
  | resume task =>
    cases ran
    exact inv.quiet inv.safe inv.traditional fun edge mem _ =>
      ⟨mem_of_mem_eraseP mem, rfl⟩
  | release st owner =>
    obtain ⟨t, freed, safe, subset, _⟩ := inv.safe.release st owner 0
    rw [Waiting.step, call, freed] at ran
    cases ran
    refine inv.quiet safe (fun pos lock mem => ?_) fun edge mem asleep => ?_
    · by_cases here : pos = st
      · rw [here] at mem
        simp only [put_roots_same] at mem
        exact inv.traditional _ lock (subset lock mem)
      · simp only [put_roots_other _ _ here] at mem
        exact inv.traditional _ lock mem
    cases changed : (s.locks.owners owner 0).any fun lock => decide (lock.state = st) with
    | true =>
      simp only [changed] at mem
      obtain ⟨old, away⟩ := mem_wakeAll mem asleep
      exact ⟨old, put_roots_other _ _ away⟩
    | false =>
      simp only [changed] at mem
      have away : ∀ lock ∈ (s.locks.table st owner 0).ownerHead, lock.state ≠ st := by
        intro lock member here
        have none_ := any_eq_false.mp changed lock member
        simp [here] at none_
      rw [kernelRecordLockRelease, releaseOwned_unchanged away] at freed
      cases freed
      refine ⟨mem, ?_⟩
      simp only [put_table]

end Waiting.Consistent

theorem Waiting.Reachable.consistent (run : s.Reachable) : s.Consistent := by
  induction run with
  | empty =>
    refine ⟨Safe.empty, nofun, nofun, fun owner cycle sleeping => ?_⟩
    obtain ⟨edge, mem⟩ := exists_mem_of_ne_nil cycle sleeping.nonempty
    cases (sleeping.asleep edge mem).1
  | step _ ok ran ih => exact ih.step ok ran

/-- No run leads to a cycle of ten or fewer sleeping requests: the one that would close it is answered with `EDEADLK`.
-/
theorem no_sleeping_cycle (reachable : s.Reachable) : (∀ cycle : List (WaitEdge State Owner), cycle ≠ [] → cycle.length ≤ 10 →
      (∀ edge ∈ cycle, edge ∈ s.edges ∧ edge.asleep = true ∧
        ∃ lock ∈ (s.locks.roots edge.state).flatten, some lock.owner = edge.blocker ∧ lock.kind = 0 ∧
          Blocks edge.owner 0 edge.start edge.stop edge.type lock) →
      ∀ owner, ¬ Linked (some owner) cycle (some owner)) ∧
    ∀ (request : LockRequest State Owner) (outcomes : List (Option UInt64)) (locks : Locks State Owner)
      (chain : List (WaitEdge State Owner)),
      (WaitStep.setLock request true outcomes).Allowed s →
      s.locks.call (.set request.state request.owner 0 request.pid request.start request.stop request.type
        outcomes) = some (-kernelEAGAIN, locks) →
      chain.length ≤ 9 → (∀ edge ∈ chain, edge ∈ s.edges ∧ edge.asleep = true) →
      Linked (s.locks.reported request.state request.owner request.start request.stop request.type).owner chain (some request.owner) →
      s.step (.setLock request true outcomes) = some (some (-kernelEDEADLK), s) := by
  have inv := reachable.consistent
  refine ⟨fun cycle ne short edges owner link => ?_, ?_⟩
  · exact inv.acyclic owner cycle ⟨ne, short, link, fun edge mem => ⟨(edges edge mem).1, (edges edge mem).2.1⟩⟩
  intro request outcomes locks chain ok called short asleep link
  obtain ⟨_, _, _, failed, refused⟩ := inv.called ok called
  have eq : locks = s.locks := failed (by decide)
  subst eq
  obtain ⟨_, owner, _, kind⟩ := inv.reported (refused rfl)
  have got := inv.detects (refused rfl) link (by omega) asleep
  rw [Waiting.step, Waiting.setLock, called]
  dsimp only
  rw [if_neg (by decide), if_neg (by simp), if_pos ⟨kind, by rw [owner]; rfl, got⟩]

end

/-- Two owners hold a byte each; the first sleeps for the other's byte, and the second is refused the first's. -/
theorem no_sleeping_cycle_pair : ∃ s : Waiting Unit Bool, s.Reachable ∧ s.edges.map WaitEdge.asleep = [true] ∧
      s.step (.setLock ⟨8, (), true, 8, 0, 0, .write⟩ true []) = some (some (-kernelEDEADLK), s) := by
  have first : Waiting.Reachable ⟨oneLock .write 0 0, []⟩ :=
    @Waiting.Reachable.step _ _ _ _ _ _ (.setLock ⟨7, (), false, 7, 0, 0, .write⟩ false [some 64]) _ .empty
      ⟨by decide, by decide, nofun⟩ rfl
  have snd := @Waiting.Reachable.step _ _ _ _ _ _ (.setLock ⟨8, (), true, 8, 5, 5, .write⟩ false [some 128]) _ first
    ⟨by decide, by decide, oneLock_unused⟩ rfl
  have third := @Waiting.Reachable.step _ _ _ _ _ _ (.setLock ⟨7, (), false, 7, 5, 5, .write⟩ true []) _ snd
    ⟨by decide, by decide, nofun⟩ rfl
  refine ⟨_, third, rfl, ?_⟩
  exact (no_sleeping_cycle third).2 ⟨8, (), true, 8, 0, 0, .write⟩ [] _ _ ⟨by decide, by decide, nofun⟩ rfl (by decide)
    (fun edge mem => ⟨mem, by rw [mem_singleton.mp mem]; rfl⟩) ⟨rfl, rfl⟩

end BoarOS.RecordLock
