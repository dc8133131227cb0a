import Mathlib.Data.Prod.Lex
import Mathlib.Data.List.Perm.Subperm
import Mathlib.Order.Fin.Basic
import BoarOS.Rwlock.Lock

namespace BoarOS.Rwlock
open Function List
open Wait (WaitPhase kernelWaitGenerationMax)

/-! What every run of the locks keeps. -/

variable {ord : Nat → Rank} {s s' : System} {task : Task} {t u l slot boundary index lim : Nat}
  {write : Bool}

def Rank.position (lock : Rank) : Fin (2 ^ 32) ×ₗ Fin (2 ^ 64) := toLex (lock.rank, lock.key)

theorem rejects_eq_false {outer lock : Rank} : outer.rejects lock = false ↔ outer.position < lock.position := by
  simp only [Rank.rejects, Rank.position, Prod.Lex.toLex_lt_toLex, Bool.or_eq_false_iff, Bool.and_eq_false_iff,
    decide_eq_false_iff_not, not_lt, beq_eq_false_iff_ne, not_le, ge_iff_le, gt_iff_lt]
  constructor
  · rintro ⟨lo, ne | less⟩
    · exact .inl (lt_of_le_of_ne lo ne)
    · exact (lt_or_eq_of_le lo).imp id fun eq => ⟨eq, less⟩
  rintro (lo | ⟨eq, less⟩)
  · exact ⟨le_of_lt lo, .inl (ne_of_lt lo)⟩
  · exact ⟨le_of_eq eq, .inr less⟩

def guardView (held : List Guard) (l : Nat) : View :=
  match held.find? fun guard => guard.lock = l with
  | some guard => .holds guard.write
  | none => .away

def Task.view (task : Task) (l : Nat) : View :=
  match task.phase with
  | .running => guardView task.locks l
  | .waiting _ lock write index _ =>
    if lock = l then if task.granted then .granted write index else .queued write index
    else guardView task.locks l
  | .handoff lock boundary => if lock = l then .handing boundary else guardView task.locks l

def Phase.lock? : Phase → Option Nat
  | .running => none
  | .waiting _ lock _ _ _ => some lock
  | .handoff lock _ => some lock

/-- The token of a waiter is the one its record was prepared with, and a granted waiter is notified. -/
def Stage.Ok (granted : Bool) (token : Nat) (record : Record) : Stage → Prop
  | .parking parked => parked = token ∧ token ≠ 0 ∧ record.generation = token ∧
      (record.phase = .prepared ∧ granted = false ∨ record.phase = .notified)
  | .sleeping parked => parked = token ∧ token ≠ 0 ∧ record.generation = token ∧
      (record.phase = .committed ∧ granted = false ∨ record.phase = .notified)
  | .finishing parked => parked = token ∧ token ≠ 0 ∧ record.generation = token ∧ record.phase = .notified
  | .reacquiring => record.phase = .finished

/-- Each lock held is above the ones acquired before, and the one being acquired or handed off above all. -/
structure Task.Ok (order : Nat → Rank) (task : Task) : Prop where
  sorted : task.locks.Pairwise fun inner outer => (order outer.lock).position < (order inner.lock).position
  above : ∀ lock, task.phase.lock? = some lock → ∀ guard ∈ task.locks, (order guard.lock).position < (order lock).position
  record : match task.phase with
    | .waiting _ _ _ _ stage => stage.Ok task.granted task.token task.record
    | _ => task.record.phase = .finished

theorem guardView_none (lo : ∀ guard ∈ held, (ord guard.lock).position < (ord l).position) : guardView held l = .away := by
  have none : held.find? (fun guard => guard.lock = l) = none := by
    refine find?_eq_none.mpr fun guard mem eq => ?_
    have less := lo guard mem
    rw [of_decide_eq_true eq] at less
    exact lt_irrefl _ less
  rw [guardView, none]

theorem guardView_cons {guard : Guard} : guardView (guard :: held) l = if guard.lock = l then .holds guard.write else guardView held l := by
  by_cases eq : guard.lock = l
  · simp [guardView, eq]
  · simp [guardView, eq]

namespace Record

theorem notify_generation (r : Record) (tok : Nat) : (r.notify tok).generation = r.generation := by
  unfold notify
  split <;> rfl

theorem notify_cases (r : Record) (tok : Nat) : r.notify tok = r ∨ (r.notify tok).phase = .notified ∧
      (r.phase = .prepared ∨ r.phase = .committed) := by
  unfold notify
  split
  next ok =>
    right
    refine ⟨rfl, ?_⟩
    simp only [tokenMatches, Bool.and_eq_true, ne_eq, decide_not, Bool.not_eq_eq_eq_not, Bool.not_true, decide_eq_false_iff_not] at ok
    cases phase : r.phase <;> simp_all
  · exact .inl rfl

theorem notify_own {r : Record} {tok : Nat} (pos : tok ≠ 0) (eq : r.generation = tok)
    (waits : r.phase ≠ .finished) : (r.notify tok).phase = .notified := by
  unfold notify
  split
  · rfl
  next fails =>
    simpa [tokenMatches, pos, eq, waits] using fails

end Record

theorem Stage.Ok.notify {stage : Stage} {granted : Bool} {own tok : Nat} {r : Record}
    (ok : stage.Ok granted own r) : stage.Ok granted own (r.notify tok) := by
  have gen := r.notify_generation tok
  rcases r.notify_cases tok with eq | ⟨notified, waits⟩
  · rw [eq]
    exact ok
  cases stage with
  | parking | sleeping => exact ⟨ok.1, ok.2.1, gen.trans ok.2.2.1, .inr notified⟩
  | finishing parked => exact ⟨ok.1, ok.2.1, gen.trans ok.2.2.1, notified⟩
  | reacquiring =>
    have fin : r.phase = .finished := ok
    rw [fin] at waits
    rcases waits with waits | waits <;> cases waits

theorem Stage.Ok.grant {stage : Stage} {granted : Bool} {own : Nat} {r : Record}
    (ok : stage.Ok granted own r) : stage.Ok true own (r.notify own) := by
  have gen := r.notify_generation own
  cases stage with
  | parking | sleeping =>
    obtain ⟨copy, pos, eq, ph⟩ := ok
    refine ⟨copy, pos, gen.trans eq, .inr (Record.notify_own pos eq ?_)⟩
    rcases ph with ⟨ph, _⟩ | ph <;> simp [ph]
  | finishing parked =>
    obtain ⟨copy, pos, eq, ph⟩ := ok
    exact ⟨copy, pos, gen.trans eq, Record.notify_own pos eq (by simp [ph])⟩
  | reacquiring => exact Stage.Ok.notify (show Stage.Ok true own r .reacquiring from ok)

def Task.Idle (task : Task) : Prop := task.locks = [] ∧ task.phase = .running

structure Consistent (order : Nat → Rank) (limit : Nat) (s : System) : Prop where
  tasks : ∀ t, (s.tasks t).Ok order
  locks : ∀ l, (s.locks l).Ok fun t => (s.tasks t).view l
  bound : ∀ t, limit ≤ t → (s.tasks t).Idle
  generations : ∀ t, (s.tasks t).record.generation ≤ s.waitGeneration

theorem views_update (l : Nat) (ts : Nat → Task) : (fun u => (update ts t task u).view l) =
      update (fun u => (ts u).view l) t (task.view l) := by
  funext u
  rcases eq_or_ne u t with rfl | ne
  · simp
  · simp [ne]

theorem consistent_initial : Consistent ord lim System.initial where
  tasks _ := ⟨List.Pairwise.nil, fun _ none => (by cases none), rfl⟩
  locks _ := Lock.ok_initial
  bound _ _ := ⟨rfl, rfl⟩
  generations _ := Nat.le_refl 0

namespace Consistent

structure Fits (order : Nat → Rank) (limit : Nat) (s : System) (t : Nat) (task : Task) : Prop where
  ok : task.Ok order
  bound : limit ≤ t → task.Idle
  generation : task.record.generation ≤ s.waitGeneration

section
variable (inv : Consistent ord lim s)
include inv

theorem replace {lock : Lock} {ts : Nat → Task} (fits : ∀ u, Fits ord lim s u (ts u))
    (here : lock.Ok fun u => (ts u).view l) (eq : ∀ l', l' ≠ l → ∀ u, (ts u).view l' = (s.tasks u).view l') :
    Consistent ord lim { s with locks := update s.locks l lock, tasks := ts } where
  tasks u := (fits u).ok
  locks l' := by
    rcases eq_or_ne l' l with rfl | ne
    · dsimp only
      rw [update_self]
      exact here
    dsimp only
    rw [update_of_ne ne, funext (eq l' ne)]
    exact inv.locks l'
  bound u := (fits u).bound
  generations u := (fits u).generation

theorem fits (u : Nat) : Fits ord lim s u (s.tasks u) := ⟨inv.tasks u, inv.bound u, inv.generations u⟩

theorem setBoth {lock : Lock} (fits : Fits ord lim s t task) (here : lock.Ok (update (fun u => (s.tasks u).view l) t (task.view l)))
    (eq : ∀ l', l' ≠ l → task.view l' = (s.tasks t).view l') : Consistent ord lim ((s.setLock l lock).setTask t task) := by
  refine inv.replace ((Function.forall_update_iff s.tasks fun u task => Fits ord lim s u task).mpr
    ⟨fits, fun u _ => inv.fits u⟩) (by rwa [views_update]) fun l' k => ?_
  exact (Function.forall_update_iff s.tasks fun u task => task.view l' = (s.tasks u).view l').mpr ⟨eq l' k, fun _ _ => rfl⟩

theorem setTask (fits : Fits ord lim s t task) (eq : ∀ l, task.view l = (s.tasks t).view l) : Consistent ord lim (s.setTask t task) := by
  have both : Consistent ord lim ((s.setLock 0 (s.locks 0)).setTask t task) :=
    inv.setBoth fits (by rw [eq, update_eq_self]; exact inv.locks 0) fun l' _ => eq l'
  rwa [System.setLock, update_eq_self] at both

theorem withGeneration (later : s.waitGeneration ≤ gen) : Consistent ord lim { s with waitGeneration := gen } :=
  ⟨inv.tasks, inv.locks, inv.bound, fun u => le_trans (inv.generations u) later⟩

theorem active_lt (act : ¬ (s.tasks t).Idle) : t < lim := by
  by_contra large
  exact act (inv.bound t (Nat.le_of_not_lt large))

theorem held_lt (held : ((s.tasks t).view l).held ≠ none) : t < lim := by
  refine inv.active_lt fun idle => held ?_
  simp [Task.view, idle.1, idle.2, guardView, View.held]

theorem readers_lt (lt : u < lim) (out : ((s.tasks u).view l).held = none) : (s.locks l).readers < lim := by
  obtain ⟨list, nodup, len, ms⟩ := (inv.locks l).holders.reads
  have new : u ∉ list := fun mem => by simp [(ms u).mp mem] at out
  have mem : u :: list ⊆ List.range lim := by
    intro v within
    rw [mem_range]
    rcases mem_cons.mp within with rfl | reads
    · exact lt
    · exact inv.held_lt (by rw [(ms v).mp reads]; simp)
  have cnt := (List.Nodup.subperm (nodup_cons.mpr ⟨new, nodup⟩) mem).length_le
  rw [length_cons, length_range, len] at cnt
  exact cnt

end
end Consistent
end BoarOS.Rwlock
