import BoarOS.Data.UpdatedMap
import Mathlib.Data.List.Nodup
import Mathlib.Data.List.TakeWhile
import BoarOS.Rwlock.Model

namespace BoarOS.Rwlock
open Data Function List

/-! One lock and what each task is to it.

A task holds the lock by a guard or, once its waiter is granted, before its acquire returns. `Lock.Ok` ties the
fields of the lock to these views. -/

inductive View where
  | away
  | holds (write : Bool)
  | queued (write : Bool) (index : Nat)
  | granted (write : Bool) (index : Nat)
  | handing (boundary : Nat)
deriving DecidableEq

def View.held : View → Option Bool
  | .holds write | .granted write _ => some write
  | _ => none

variable {views views' : Nat → View} {view v : View} {t u edge i readers : Nat} {write : Bool}
  {writer : Option Nat}

theorem update_view_iff (old : views t ≠ view) (new : v ≠ view) : update views t v u = view ↔ views u = view := by
  rcases eq_or_ne u t with rfl | ne
  · simp [old, new]
  · rw [update_of_ne ne]

structure Holders (writer : Option Nat) (readers : Nat) (views : Nat → View) : Prop where
  writes : ∀ t, writer = some t ↔ (views t).held = some true
  reads : ∃ list : List Nat, list.Nodup ∧ list.length = readers ∧ ∀ t, t ∈ list ↔ (views t).held = some false
  exclusive : writer ≠ none → readers = 0

namespace Holders

theorem congr (hs : Holders writer readers views) (eq : ∀ u, (views' u).held = (views u).held) : Holders writer readers views' where
  writes u := by rw [eq u]; exact hs.writes u
  reads := by
    obtain ⟨list, nodup, len, ms⟩ := hs.reads
    exact ⟨list, nodup, len, fun u => by rw [eq u]; exact ms u⟩
  exclusive := hs.exclusive

theorem update (hs : Holders writer readers views) (eq : v.held = (views t).held) : Holders writer readers (Function.update views t v) :=
  hs.congr fun u => by
    rcases eq_or_ne u t with rfl | ne
    · rw [update_self, eq]
    · rw [update_of_ne ne]

theorem none_reads (hs : Holders writer 0 views) (u : Nat) : (views u).held ≠ some false := by
  intro held
  obtain ⟨_, _, len, ms⟩ := hs.reads
  rw [eq_nil_of_length_eq_zero len] at ms
  cases (ms u).mpr held

theorem enterWrite (hs : Holders none 0 views) (holds : v.held = some true) : Holders (some t) 0 (Function.update views t v) where
  writes u := by
    rcases eq_or_ne u t with rfl | other
    · simp [holds]
    rw [update_of_ne other, ← hs.writes u]
    simp [other.symm]
  reads := ⟨[], nodup_nil, rfl, fun u => by
    rcases eq_or_ne u t with rfl | other
    · simp [holds]
    rw [update_of_ne other]
    simp [hs.none_reads u]⟩
  exclusive _ := rfl

theorem enterRead (hs : Holders none readers views) (out : (views t).held = none)
    (holds : v.held = some false) : Holders none (readers + 1) (Function.update views t v) where
  writes u := by
    rcases eq_or_ne u t with rfl | ne
    · simp [holds]
    rw [update_of_ne ne]
    exact hs.writes u
  reads := by
    obtain ⟨list, nodup, len, ms⟩ := hs.reads
    have new : t ∉ list := fun mem => by simp [(ms t).mp mem] at out
    refine ⟨t :: list, nodup_cons.mpr ⟨new, nodup⟩, by rw [length_cons, len], fun u => ?_⟩
    rcases eq_or_ne u t with rfl | ne
    · simp [holds]
    rw [update_of_ne ne, ← ms u]
    simp [ne]
  exclusive held := absurd rfl held

theorem leaveWrite (hs : Holders (some t) readers views) (leaves : v.held = none) : Holders none readers (Function.update views t v) where
  writes u := by
    rcases eq_or_ne u t with rfl | other
    · simp [leaves]
    rw [update_of_ne other, ← hs.writes u]
    simp [other.symm]
  reads := by
    obtain ⟨list, nodup, len, ms⟩ := hs.reads
    refine ⟨list, nodup, len, fun u => ?_⟩
    rcases eq_or_ne u t with rfl | other
    · rw [update_self, leaves, ms u, (hs.writes u).mp rfl]
      simp
    · rw [update_of_ne other]
      exact ms u
  exclusive held := absurd rfl held

theorem leaveRead (hs : Holders writer readers views) (held : (views t).held = some false) (leaves : v.held = none) :
    writer = none ∧ readers ≠ 0 ∧ Holders none (readers - 1) (Function.update views t v) := by
  obtain ⟨list, nodup, len, ms⟩ := hs.reads
  have mem : t ∈ list := (ms t).mpr held
  have pos : readers ≠ 0 := by
    rw [← len]
    exact Nat.pos_iff_ne_zero.mp (length_pos_of_mem mem)
  have noWriter : writer = none := by
    by_contra some
    exact pos (hs.exclusive some)
  subst noWriter
  refine ⟨rfl, pos, ?_, ⟨list.erase t, nodup.erase t, by rw [length_erase_of_mem mem, len], ?_⟩, fun held => absurd rfl held⟩
  · intro u
    rcases eq_or_ne u t with rfl | ne
    · simp [leaves]
    rw [update_of_ne ne]
    exact hs.writes u
  intro u
  rw [nodup.mem_erase_iff]
  rcases eq_or_ne u t with rfl | ne
  · simp [leaves]
  rw [update_of_ne ne, ← ms u]
  simp [ne]

end Holders

variable {pend arrivals grants rest : List Waiter} {returns : List Nat} {next : Waiter}

structure Queue (pending arrivals grants : List Waiter) (returns : List Nat) (views : Nat → View) : Prop where
  members : ∀ waiter, waiter ∈ pending ↔ ∃ index, views waiter.owner = .queued waiter.write index
  distinct : (pending.map Waiter.owner).Nodup
  history : arrivals = grants ++ pending
  queuedAt : ∀ t write index, views t = .queued write index → grants.length ≤ index ∧ arrivals[index]? = some ⟨t, write⟩
  grantedAt : ∀ t write index, views t = .granted write index → grants[index]? = some ⟨t, write⟩ ∧ index ∉ returns
  returned : returns.Nodup ∧ ∀ index ∈ returns, index < grants.length

namespace Queue

theorem getElem?_append_of_some {list more : List Waiter} (got : list[i]? = some next) : (list ++ more)[i]? = some next := by
  rw [List.getElem?_append_left (List.getElem?_eq_some_iff.mp got).1, got]

theorem update (q : Queue pend arrivals grants returns views) (old : ∀ write i, views t ≠ .queued write i)
    (new : ∀ write i, v ≠ .queued write i) (ungranted : ∀ write i, v ≠ .granted write i) :
    Queue pend arrivals grants returns (Function.update views t v) where
  members waiter := by simp [update_view_iff (old _ _) (new _ _), q.members]
  distinct := q.distinct
  history := q.history
  queuedAt u kind place same := q.queuedAt u kind place ((update_view_iff (old _ _) (new _ _)).mp same)
  grantedAt u kind place same := by
    obtain ⟨rfl, now⟩ | ⟨_, same⟩ := of_update_eq same
    · exact absurd now (ungranted _ _)
    · exact q.grantedAt u kind place same
  returned := q.returned

theorem register (q : Queue pend arrivals grants returns views) (old : ∀ write i, views t ≠ .queued write i) :
    Queue (pend ++ [⟨t, write⟩]) (arrivals ++ [⟨t, write⟩]) grants returns (Function.update views t (.queued write arrivals.length)) where
  members waiter := by
    rw [mem_append, mem_singleton, q.members]
    rcases eq_or_ne waiter.owner t with same | ne
    · rw [same, update_self]
      constructor
      · rintro (⟨pos, queued⟩ | rfl)
        · exact absurd queued (old _ _)
        · exact ⟨_, rfl⟩
      rintro ⟨pos, queued⟩
      right
      cases same
      cases queued
      rfl
    · rw [update_of_ne ne]
      refine ⟨fun cases => cases.elim id fun same => ?_, .inl⟩
      rw [same] at ne
      exact absurd rfl ne
  distinct := by
    rw [map_append, map_singleton]
    refine List.Nodup.append q.distinct (nodup_singleton _) ?_
    intro u mem single
    rw [mem_singleton] at single
    obtain ⟨waiter, waits, owns⟩ := mem_map.mp mem
    obtain ⟨pos, queued⟩ := (q.members waiter).mp waits
    rw [owns, single] at queued
    exact old _ _ queued
  history := by rw [q.history, append_assoc]
  queuedAt u kind pos same := by
    obtain ⟨rfl, ⟨⟩⟩ | ⟨_, same⟩ := of_update_eq same
    · refine ⟨?_, by simp⟩
      rw [q.history, length_append]
      omega
    · obtain ⟨later, got⟩ := q.queuedAt u kind pos same
      exact ⟨later, getElem?_append_of_some got⟩
  grantedAt u kind pos same := by
    obtain ⟨_, ⟨⟩⟩ | ⟨_, same⟩ := of_update_eq same
    exact q.grantedAt u kind pos same
  returned := q.returned

theorem head_index (q : Queue (next :: rest) arrivals grants returns views) : views next.owner = .queued next.write grants.length := by
  obtain ⟨place, queued⟩ := (q.members next).mp (.head _)
  obtain ⟨later, got⟩ := q.queuedAt _ _ _ queued
  rw [q.history, List.getElem?_append_right later] at got
  have first : place - grants.length = 0 := by
    by_contra pos
    obtain ⟨k, pre⟩ := Nat.exists_eq_succ_of_ne_zero pos
    rw [pre] at got
    have again : next.owner ∈ rest.map Waiter.owner := mem_map.mpr ⟨_, List.mem_of_getElem? got, rfl⟩
    exact (nodup_cons.mp q.distinct).1 again
  rw [queued, show place = grants.length by omega]

theorem grant (q : Queue (next :: rest) arrivals grants returns views) : Queue rest arrivals (grants ++ [next]) returns
      (Function.update views next.owner (.granted next.write grants.length)) where
  members waiter := by
    have only := (nodup_cons.mp q.distinct).1
    rcases eq_or_ne waiter.owner next.owner with same | ne
    · rw [same, update_self]
      refine ⟨fun mem => ?_, fun ⟨_, queued⟩ => by cases queued⟩
      exact absurd (mem_map.mpr ⟨waiter, mem, same⟩) only
    rw [update_of_ne ne, ← q.members, mem_cons]
    refine ⟨.inr, fun cases => cases.elim (fun same => ?_) id⟩
    rw [same] at ne
    exact absurd rfl ne
  distinct := (nodup_cons.mp q.distinct).2
  history := by rw [q.history, append_assoc, singleton_append]
  queuedAt u kind pos same := by
    obtain ⟨_, ⟨⟩⟩ | ⟨ne, same⟩ := of_update_eq same
    obtain ⟨later, got⟩ := q.queuedAt u kind pos same
    refine ⟨?_, got⟩
    rw [length_append]
    rcases lt_or_eq_of_le later with more | first
    · exact more
    rw [q.history, ← first, List.getElem?_append_right le_rfl] at got
    simp only [Nat.sub_self, List.getElem?_cons_zero, Option.some.injEq] at got
    rw [got] at ne
    exact absurd rfl ne
  grantedAt u kind pos same := by
    obtain ⟨rfl, ⟨⟩⟩ | ⟨_, same⟩ := of_update_eq same
    · exact ⟨by simp, fun mem => lt_irrefl _ (q.returned.2 _ mem)⟩
    obtain ⟨got, new⟩ := q.grantedAt u kind pos same
    exact ⟨getElem?_append_of_some got, new⟩
  returned := ⟨q.returned.1, fun pos mem => by
    rw [length_append]
    exact Nat.lt_add_right _ (q.returned.2 pos mem)⟩

theorem settle (q : Queue pend arrivals grants returns views) (granted : views t = .granted write i) :
    Queue pend arrivals grants (returns ++ [i]) (Function.update views t (.holds write)) where
  members waiter := by
    have old : ∀ pos, views t ≠ .queued waiter.write pos := fun pos => by simp [granted]
    have new : ∀ pos, View.holds write ≠ .queued waiter.write pos := fun pos => by simp
    simp [update_view_iff (old _) (new _), q.members]
  distinct := q.distinct
  history := q.history
  queuedAt u kind pos same := q.queuedAt u kind pos ((update_view_iff (by simp [granted]) (by simp)).mp same)
  grantedAt u kind pos same := by
    obtain ⟨_, ⟨⟩⟩ | ⟨ne, same⟩ := of_update_eq same
    obtain ⟨got, fresh⟩ := q.grantedAt u kind pos same
    refine ⟨got, fun mem => ?_⟩
    rcases mem_append.mp mem with earlier | now
    · exact fresh earlier
    rw [mem_singleton.mp now, (q.grantedAt t write i granted).1] at got
    cases got
    exact ne rfl
  returned := by
    obtain ⟨got, fresh⟩ := q.grantedAt t write i granted
    refine ⟨List.Nodup.append q.returned.1 (nodup_singleton _) ?_, fun pos mem => ?_⟩
    · intro pos earlier now
      rw [mem_singleton.mp now] at earlier
      exact fresh earlier
    rcases mem_append.mp mem with earlier | now
    · exact q.returned.2 pos earlier
    rw [mem_singleton.mp now]
    exact (List.getElem?_eq_some_iff.mp got).1

end Queue

/-- The waiters that one hand-off grants: a writer at the head, or the readers before the first writer. -/
def batch : List Waiter → List Waiter
  | [] => []
  | first :: rest => if first.write then [first] else first :: rest.takeWhile fun waiter => !waiter.write

/-- `left` is the part of what a hand-off started with that it has not granted. -/
structure Lock.Paused (lock : Lock) (boundary : Nat) (handoff : Handoff) (left : List Waiter) : Prop where
  parts : handoff.start = handoff.given ++ left
  readers : ∀ waiter ∈ handoff.given, waiter.write = false
  front : ∃ later, lock.pending = left ++ later
  last : left.getLast?.map Waiter.owner = some boundary
  first : left.head?.any Waiter.write = true → handoff.given = [] ∧ lock.readers = 0
  free : lock.writer = none

structure Lock.Handing (lock : Lock) (views : Nat → View) : Prop where
  handing : ∀ t boundary, views t = .handing boundary →
    lock.handoffOwner = some t ∧ ∃ handoff left, lock.current = some handoff ∧ lock.Paused boundary handoff left
  owner : ∀ t, lock.handoffOwner = some t → ∃ boundary, views t = .handing boundary
  resting : lock.handoffOwner = none → lock.current = none
  complete : ∀ handoff ∈ lock.handoffs, handoff.given = batch handoff.start
  together : lock.grants = (lock.handoffs ++ lock.current.toList).flatMap Handoff.given

namespace Lock
variable {lock s' : Lock} {handoff : Handoff} {left : List Waiter}

/-- Other sections may queue waiters and let readers go while a hand-off is paused. -/
structure Outside (lock after : Lock) : Prop where
  handoffOwner : after.handoffOwner = lock.handoffOwner
  current : after.current = lock.current
  handoffs : after.handoffs = lock.handoffs
  grants : after.grants = lock.grants
  pending : ∃ later, after.pending = lock.pending ++ later
  readers : lock.handoffOwner ≠ none → after.readers ≤ lock.readers
  writer : lock.handoffOwner ≠ none → lock.writer = none → after.writer = none

theorem Handing.outside (handing : Handing lock views) (out : Outside lock s') (old : ∀ edge, views t ≠ .handing edge)
    (new : ∀ edge, v ≠ .handing edge) : Handing s' (Function.update views t v) where
  handing u pos same := by
    rw [update_view_iff (old _) (new _)] at same
    obtain ⟨owns, handoff, left, now, paused⟩ := handing.handing u pos same
    have held : lock.handoffOwner ≠ none := by simp [owns]
    refine ⟨out.handoffOwner.trans owns, handoff, left, out.current.trans now, ?_⟩
    refine { paused with front := ?_, first := fun writes => ?_, free := out.writer held paused.free }
    · obtain ⟨later, front⟩ := paused.front
      obtain ⟨more, grown⟩ := out.pending
      exact ⟨later ++ more, by rw [grown, front, append_assoc]⟩
    obtain ⟨nothing, _⟩ := paused.first writes
    have fewer := out.readers held
    exact ⟨nothing, by omega⟩
  owner u owns := by
    rw [out.handoffOwner] at owns
    obtain ⟨pos, same⟩ := handing.owner u owns
    exact ⟨pos, (update_view_iff (old _) (new _)).mpr same⟩
  resting rests := by
    rw [out.handoffOwner] at rests
    rw [out.current, handing.resting rests]
  complete := by
    rw [out.handoffs]
    exact handing.complete
  together := by
    rw [out.grants, out.handoffs, out.current]
    exact handing.together

theorem Handing.begin (handing : Handing lock views) (rests : lock.handoffOwner = none) (free : lock.writer = none)
    (unread : lock.readers = 0) (tail : lock.pending.getLast? = some last) :
    Handing (lock.beginHandoff t) (Function.update views t (.handing last.owner)) where
  handing u place same := by
    obtain ⟨rfl, ⟨⟩⟩ | ⟨_, same⟩ := of_update_eq same
    · exact ⟨rfl, _, lock.pending, rfl, rfl, fun _ mem => (by cases mem), ⟨[], (append_nil _).symm⟩,
        by rw [tail]; rfl, fun _ => ⟨rfl, unread⟩, free⟩
    · rw [(handing.handing u place same).1] at rests
      cases rests
  owner u owns := by
    cases owns
    exact ⟨last.owner, by simp⟩
  resting rests := by cases rests
  complete := handing.complete
  together := by
    have start := handing.together
    rw [handing.resting rests] at start
    simpa [beginHandoff] using start

/-- The hand-off loop never finds its list empty, nor a writer at the head once it has granted. -/
theorem Paused.head (paused : lock.Paused edge handoff left) :
    ∃ next rest later, left = next :: rest ∧ lock.pending = next :: (rest ++ later) ∧
      (next.write = true → handoff.given = [] ∧ lock.readers = 0) := by
  obtain ⟨later, front⟩ := paused.front
  cases left with
  | nil =>
    have last := paused.last
    cases last
  | cons next rest =>
    exact ⟨next, rest, later, rfl, by rw [front, cons_append], fun writes => paused.first (by simp [writes])⟩

theorem batch_of_readers (readers : ∀ waiter ∈ given, waiter.write = false)
    (some : given ≠ []) (stop : left.head?.all Waiter.write = true) : batch (given ++ left) = given := by
  cases given with
  | nil => exact absurd rfl some
  | cons first rest =>
    have tail : left.takeWhile (fun waiter => !waiter.write) = [] := by
      cases left with
      | nil => rfl
      | cons head others => simpa using stop
    have body : ∀ waiter ∈ rest, (!waiter.write) = true := fun waiter mem => by
      rw [readers waiter (mem_cons_of_mem _ mem)]
      rfl
    simp only [cons_append, batch, readers first mem_cons_self]
    rw [takeWhile_append_of_pos body, tail, append_nil]
    rfl

structure Ok (lock : Lock) (views : Nat → View) : Prop where
  holders : Holders lock.writer lock.readers views
  queue : Queue lock.pending lock.arrivals lock.grants lock.returns views
  handing : Handing lock views
  idle : lock.writer = none → lock.readers = 0 → lock.handoffOwner = none → lock.pending = []

theorem ok_initial : Ok ⟨none, [], none, 0, [], [], [], [], none⟩ fun _ => .away where
  holders :=
    { writes := fun _ => by simp [View.held]
      reads := ⟨[], nodup_nil, rfl, fun _ => by simp [View.held]⟩
      exclusive := fun held => absurd rfl held }
  queue :=
    { members := fun _ => by simp
      distinct := nodup_nil
      history := rfl
      queuedAt := fun _ _ _ eq => by cases eq
      grantedAt := fun _ _ _ eq => by cases eq
      returned := ⟨nodup_nil, fun _ mem => by cases mem⟩ }
  handing :=
    { handing := fun _ _ eq => by cases eq
      owner := fun _ eq => by cases eq
      resting := fun _ => rfl
      complete := fun _ mem => by cases mem
      together := rfl }
  idle _ _ _ := rfl

theorem busy_eq_false (free : lock.busy write = false) :
    lock.writer = none ∧ lock.pending = [] ∧ lock.handoffOwner = none ∧ (write = true → lock.readers = 0) := by
  simpa [busy, and_assoc] using free

theorem Ok.take (ok : Ok lock views) (away : views t = .away) (free : lock.busy write = false)
    (takes : lock.take t write = some s') : Ok s' (Function.update views t (.holds write)) := by
  obtain ⟨noWriter, _, noHandoff, noReaders⟩ := busy_eq_false free
  have hs := ok.holders
  rw [noWriter] at hs
  have q : Queue lock.pending lock.arrivals lock.grants lock.returns (Function.update views t (.holds write)) :=
    ok.queue.update (by simp [away]) (by simp) (by simp)
  unfold Lock.take at takes
  split at takes
  next writes =>
    cases takes
    rw [noReaders writes] at hs
    refine ⟨?_, q, ok.handing.outside ⟨rfl, rfl, rfl, rfl, ⟨[], (append_nil _).symm⟩, fun _ => le_rfl,
      fun held => absurd noHandoff held⟩ (by simp [away]) (by simp), fun none => by cases none⟩
    rw [noReaders writes]
    exact hs.enterWrite (by simp [View.held, writes])
  rename_i reads
  split at takes
  · cases takes
  cases takes
  refine ⟨?_, q, ok.handing.outside ⟨rfl, rfl, rfl, rfl, ⟨[], (append_nil _).symm⟩,
    fun held => absurd noHandoff held, fun _ => id⟩ (by simp [away]) (by simp), fun _ none => by cases none⟩
  rw [noWriter]
  exact hs.enterRead (by simp [away, View.held]) (by simpa [View.held] using reads)

theorem Ok.register (ok : Ok lock views) (away : views t = .away) (busy : lock.busy write = true) :
    Ok (lock.register ⟨t, write⟩) (Function.update views t (.queued write lock.arrivals.length)) where
  holders := ok.holders.update (by simp [away, View.held])
  queue := ok.queue.register (by simp [away])
  handing := ok.handing.outside ⟨rfl, rfl, rfl, rfl, ⟨_, rfl⟩, fun _ => le_rfl, fun _ => id⟩ (by simp [away]) (by simp)
  idle noWriter noReaders noHandoff := by
    have noPending := ok.idle noWriter noReaders noHandoff
    simp only [Lock.register] at noWriter noReaders noHandoff
    simp [Lock.busy, noWriter, noReaders, noHandoff, noPending] at busy

theorem Ok.settle (ok : Ok lock views) (granted : views t = .granted write i) :
    Ok (lock.settle i) (Function.update views t (.holds write)) where
  holders := ok.holders.update (by simp [granted, View.held])
  queue := ok.queue.settle granted
  handing := ok.handing.outside ⟨rfl, rfl, rfl, rfl, ⟨[], (append_nil _).symm⟩, fun _ => le_rfl, fun _ => id⟩ (by simp [granted]) (by simp)
  idle := ok.idle

/-- A holder can always give its share back; what is left lacks only a start for the next hand-off. -/
theorem Ok.drop (ok : Ok lock views) (holds : views t = .holds write) :
    ∃ s', lock.drop t write = some s' ∧ Holders s'.writer s'.readers (Function.update views t .away) ∧
      Queue s'.pending s'.arrivals s'.grants s'.returns (Function.update views t .away) ∧ Handing s' (Function.update views t .away) := by
  have q : Queue lock.pending lock.arrivals lock.grants lock.returns (Function.update views t .away) :=
    ok.queue.update (by simp [holds]) (by simp) (by simp)
  cases write with
  | true =>
    have writes : lock.writer = some t := (ok.holders.writes t).mpr (by simp [holds, View.held])
    have unread := ok.holders.exclusive (by simp [writes])
    have hs := ok.holders
    rw [writes] at hs
    refine ⟨{ lock with writer := none }, by simp [Lock.drop, writes, unread], hs.leaveWrite rfl, q, ?_⟩
    exact ok.handing.outside ⟨rfl, rfl, rfl, rfl, ⟨[], (append_nil _).symm⟩, fun _ => le_rfl, fun _ _ => rfl⟩ (by simp [holds]) (by simp)
  | false =>
    have reads : (views t).held = some false := by rw [holds]; rfl
    obtain ⟨noWriter, pos, hs⟩ := ok.holders.leaveRead reads (show View.away.held = none from rfl)
    refine ⟨{ lock with readers := lock.readers - 1 }, by simp [Lock.drop, noWriter, pos], ?_, q, ?_⟩
    · rw [noWriter]
      exact hs
    · exact ok.handing.outside ⟨rfl, rfl, rfl, rfl, ⟨[], (append_nil _).symm⟩, fun _ => Nat.sub_le _ _,
        fun _ => id⟩ (by simp [holds]) (by simp)

theorem grant_eq (grants : lock.grant = some (next, s')) : ∃ rest, lock.pending = next :: rest ∧ s' = { lock with
      pending := rest
      grants := lock.grants ++ [next]
      current := lock.current.map fun handoff => { handoff with given := handoff.given ++ [next] }
      writer := if next.write then some next.owner else lock.writer
      readers := if next.write then lock.readers else lock.readers + 1 } ∧
      (next.write = true → lock.readers = 0 ∧ lock.writer = none) := by
  unfold grant at grants
  split at grants
  · cases grants
  rename_i first rest front
  split at grants
  next writes =>
    split at grants
    · cases grants
    rename_i unheld
    cases grants
    simp only [not_or, not_not] at unheld
    exact ⟨rest, front, by simp [writes], fun _ => unheld⟩
  rename_i reads
  split at grants
  · cases grants
  cases grants
  exact ⟨rest, front, by simp [reads], fun writes => absurd writes reads⟩

theorem Ok.grant_some (ok : Ok lock views) (hands : views t = .handing edge) (room : lock.readers < uint32Max) :
    ∃ next s', lock.grant = some (next, s') := by
  obtain ⟨_, _, _, _, paused⟩ := ok.handing.handing t edge hands
  obtain ⟨next, _, _, _, front, first⟩ := paused.head
  cases writes : next.write with
  | true => exact ⟨_, _, by simp [grant, front, writes, (first writes).2, paused.free]; exact ⟨rfl, rfl⟩⟩
  | false => exact ⟨_, _, by simp [grant, front, writes, ne_of_lt room]; exact ⟨rfl, rfl⟩⟩

section Grant
variable {next : Waiter}

section
variable (ok : Ok lock views)
include ok

theorem Ok.grant_holders (hands : views t = .handing edge) (grants : lock.grant = some (next, s')) :
    Holders s'.writer s'.readers (Function.update views next.owner (.granted next.write lock.grants.length)) := by
  obtain ⟨_, _, _, _, paused⟩ := ok.handing.handing t edge hands
  obtain ⟨_, front, rfl, unheld⟩ := grant_eq grants
  have hs := ok.holders
  rw [paused.free] at hs
  have q := ok.queue
  rw [front] at q
  cases writes : next.write with
  | true =>
    rw [(unheld writes).1] at hs ⊢
    exact hs.enterWrite (by rw [← writes]; rfl)
  | false =>
    simp only [paused.free]
    exact hs.enterRead (by rw [q.head_index]; rfl) rfl

theorem Ok.grant_queue (grants : lock.grant = some (next, s')) : Queue s'.pending s'.arrivals s'.grants s'.returns
      (Function.update views next.owner (.granted next.write lock.grants.length)) := by
  obtain ⟨_, front, rfl, _⟩ := grant_eq grants
  have q := ok.queue
  rw [front] at q
  exact q.grant

theorem Ok.granted_was_queued (grants : lock.grant = some (next, s')) : views next.owner = .queued next.write lock.grants.length := by
  obtain ⟨_, front, _⟩ := grant_eq grants
  have q := ok.queue
  rw [front] at q
  exact q.head_index

theorem Ok.grant_next (hands : views t = .handing edge) (grants : lock.grant = some (next, s'))
    (goes : s'.stops edge next = false) : Ok s' (Function.update views next.owner (.granted next.write lock.grants.length)) := by
  refine ⟨ok.grant_holders hands grants, ok.grant_queue grants, ?_, ?_⟩
  · have waits := ok.granted_was_queued grants
    obtain ⟨owns, _, _, cur, paused⟩ := ok.handing.handing t edge hands
    obtain ⟨rest, front, rfl, _⟩ := grant_eq grants
    obtain ⟨head, others, later, parts, ahead, _⟩ := paused.head
    obtain ⟨rfl, rfl⟩ : head = next ∧ others ++ later = rest := by simpa [ahead] using front
    simp only [stops, Bool.or_eq_false_iff, beq_eq_false_iff_ne] at goes
    obtain ⟨⟨reads, notLast⟩, noWriter⟩ := goes
    have more : others ≠ [] := by
      rintro rfl
      have last := paused.last
      rw [parts] at last
      exact notLast (by simpa using last)
    have eq : ∀ u pos, update views head.owner (.granted head.write lock.grants.length) u =
        .handing pos ↔ views u = .handing pos := fun u pos =>
      update_view_iff (by simp [waits]) (by simp)
    refine ⟨fun u pos hands' => ?_, fun u owner => ?_, fun rests => ?_, ok.handing.complete, ?_⟩
    · rw [eq] at hands'
      obtain ⟨owns', _⟩ := ok.handing.handing u pos hands'
      obtain rfl : u = t := by
        rw [owns] at owns'
        cases owns'
        rfl
      rw [hands] at hands'
      cases hands'
      refine ⟨owns, _, others, by rw [cur]; rfl, ?_, ?_, ⟨later, rfl⟩, ?_, ?_, ?_⟩
      · rw [paused.parts, parts]
        simp
      · intro waiter mem
        rcases mem_append.mp mem with old | now
        · exact paused.readers waiter old
        · rw [mem_singleton.mp now, reads]
      · have last := paused.last
        rw [parts, getLast?_cons_of_ne_nil more] at last
        exact last
      · intro writes
        rw [head?_append_of_ne_nil _ more] at noWriter
        rw [noWriter] at writes
        cases writes
      · simp [reads, paused.free]
    · obtain ⟨pos, hands'⟩ := ok.handing.owner u owner
      exact ⟨pos, (eq u pos).mpr hands'⟩
    · rw [owns] at rests
      cases rests
    · rw [ok.handing.together, cur]
      simp
  · intro _ _ rests
    obtain ⟨owns, _⟩ := ok.handing.handing t edge hands
    obtain ⟨_, _, rfl, _⟩ := grant_eq grants
    rw [owns] at rests
    cases rests

theorem Ok.grant_last (hands : views t = .handing edge) (grants : lock.grant = some (next, s')) (stop : s'.stops edge next = true) :
    Ok s'.endHandoff (update (Function.update views next.owner (.granted next.write lock.grants.length)) t .away) := by
  have waits := ok.granted_was_queued grants
  have apart : t ≠ next.owner := by
    rintro rfl
    rw [hands] at waits
    cases waits
  have still : update views next.owner (.granted next.write lock.grants.length) t = .handing edge := by
    rw [update_of_ne apart, hands]
  refine ⟨(ok.grant_holders hands grants).update (by rw [still]; rfl),
    (ok.grant_queue grants).update (by simp [still]) (by simp) (by simp), ?_, ?_⟩
  · obtain ⟨owns, handoff, _, cur, paused⟩ := ok.handing.handing t edge hands
    obtain ⟨rest, front, rfl, _⟩ := grant_eq grants
    obtain ⟨head, others, later, parts, ahead, first⟩ := paused.head
    obtain ⟨rfl, rfl⟩ : head = next ∧ others ++ later = rest := by simpa [ahead] using front
    refine ⟨fun u pos hands' => ?_, fun u owner => ?_, fun _ => rfl, fun done mem => ?_, ?_⟩
    · rcases eq_or_ne u t with rfl | ne
      · rw [update_self] at hands'
        cases hands'
      · rw [update_of_ne ne, update_view_iff (by simp [waits]) (by simp)] at hands'
        rw [(ok.handing.handing u pos hands').1] at owns
        cases owns
        exact absurd rfl ne
    · cases owner
    · simp only [endHandoff, cur, Option.map_some, Option.toList_some, mem_append, mem_singleton] at mem
      rcases mem with old | rfl
      · exact ok.handing.complete done old
      rw [paused.parts, parts]
      cases writes : head.write with
      | true =>
        rw [(first writes).1]
        simp [batch, writes]
      | false =>
        have ends : others.head?.all Waiter.write = true := by
          cases others with
          | nil => rfl
          | cons snd more =>
            have distinct := ok.queue.distinct
            have last := paused.last
            rw [ahead, map_cons, nodup_cons] at distinct
            rw [parts] at last
            obtain ⟨tail, ends, owned⟩ := Option.map_eq_some_iff.mp last
            have notLast : head.owner ≠ edge := by
              rintro rfl
              exact distinct.1 (mem_map.mpr ⟨tail, mem_append_left _ (mem_of_getLast? ends), owned⟩)
            simpa [stops, writes, notLast] using stop
        rw [show handoff.given ++ head :: others = handoff.given ++ [head] ++ others by simp]
        exact (batch_of_readers (fun waiter mem => by
          rcases mem_append.mp mem with old | now
          · exact paused.readers waiter old
          · rw [mem_singleton.mp now, writes]) (by simp) ends).symm
    · simp only [endHandoff]
      rw [ok.handing.together, cur]
      simp
  · intro unwritten unread _
    obtain ⟨_, _, rfl, _⟩ := grant_eq grants
    cases writes : next.write with
    | true => simp [endHandoff, writes] at unwritten
    | false => simp [endHandoff, writes] at unread

end
end Grant
end Lock
end BoarOS.Rwlock
