import BoarOS.Data.UpdatedMap
import BoarOS.Sem.Update
import Mathlib.Data.List.Count

namespace BoarOS.Sem
open Data Function

/-! # Invariants of the semaphore system

Four groups of facts, each over the parts of the state that it needs: how entries hang
in their two lists, who owns a group, who waits at a set, and what the trace says about
values and adjustments.
-/

abbrev Sets := Nat → Option SemSet
abbrev Entries := Nat → Option UndoEntry
abbrev Groups := Nat → Option UndoGroup
abbrev Tasks := Nat → Task

def undoSum (i : Nat) : List Sembuf → Int
  | [] => 0
  | op :: rest => (if op.undoes = true ∧ op.num = i then op.amount else 0) + undoSum i rest

/-- What a group has taken from a member since it was last set, newest event first. -/
def owed (group set i : Nat) : List Event → Int
  | [] => 0
  | .completed by_ at_ ops :: rest => (if by_ = some group ∧ at_ = set then undoSum i ops else 0) + owed group set i rest
  | .setVal at_ num :: rest => if at_ = set ∧ num = i then 0 else owed group set i rest
  | .setAll at_ :: rest => if at_ = set then 0 else owed group set i rest
  | .applied _ _ :: rest => owed group set i rest

/-- An entry hangs in the lists of its set and of its group until it is unlinked, for which there is a reason. -/
structure Links (sets : Sets) (entries : Entries) (groups : Groups) : Prop where
  inSet : ∀ id set, sets id = some set → ∀ e, e ∈ set.undo ↔ ∃ record, entries e = some record ∧ record.set = id ∧ record.linked = true
  inGroup : ∀ id group, groups id = some group → ∀ e, e ∈ group.entries ↔
    ∃ record, entries e = some record ∧ record.group = id ∧ record.linked = true
  home : ∀ e record, entries e = some record → (∃ set, sets record.set = some set) ∧ ∃ group, groups record.group = some group
  unique : ∀ e f record other, entries e = some record → entries f = some other → record.group = other.group →
    record.set = other.set → e = f
  unlinked : ∀ e record, entries e = some record → record.linked = false →
    (∃ set, sets record.set = some set ∧ set.removed = true) ∨ ∃ group, groups record.group = some group ∧ group.owners = 0

def Holds (tasks : Tasks) (task group : Nat) : Prop :=
  (tasks task).undo = some group ∨ (tasks task).phase = .leaving group

/-- A request that may be tried: its entry is that of its task's group for the set. -/
structure Owns (entries : Entries) (tasks : Tasks) (id : Nat) (request : Request) : Prop where
  honest : request.Honest
  entry : ∀ e, request.undo = some e → ∃ record, entries e = some record ∧ record.set = id ∧ (tasks request.task).undo = some record.group
  covered : request.undo = none → ∀ op ∈ request.ops, op.undoes = false

def PhaseOk (tasks : Tasks) (groups : Groups) (entries : Entries) (sets : Sets) (task : Nat) : Prop :=
  match (tasks task).phase with
  | .unborn | .leaving _ | .dead => (tasks task).undo = none
  | .idle | .parked _ => True
  | .finding _ request | .inserting _ request => request.task = task ∧ request.Honest
  | .trying id request => request.task = task ∧ Owns entries tasks id request
  | .removing id => ∃ set, sets id = some set ∧ set.removed = true
  | .draining id => (tasks task).undo = none ∧ ∃ group, groups id = some group ∧ group.owners = 0
  | .detaching id e => (tasks task).undo = none ∧ (∃ group, groups id = some group ∧ group.owners = 0) ∧
      ∃ record, entries e = some record ∧ record.group = id

structure Owners (tasks : Tasks) (groups : Groups) (entries : Entries) (sets : Sets) : Prop where
  counted : ∀ id group, groups id = some group → ∃ holders : List Nat, holders.Nodup ∧
    holders.length = group.owners ∧ ∀ task, task ∈ holders ↔ Holds tasks task id
  known : ∀ task id, Holds tasks task id → ∃ group, groups id = some group
  phases : ∀ task, PhaseOk tasks groups entries sets task

structure Queues (sets : Sets) (entries : Entries) (adjustments : Adjustments) (tasks : Tasks) : Prop where
  parked : ∀ id set, sets id = some set → ∀ request ∈ set.queue, Owns entries tasks id request ∧ (tasks request.task).phase = .parked id
  stuck : ∀ id set, sets id = some set → ∀ request ∈ set.queue, request.Stuck set.value (request.adjustment adjustments)
  drained : ∀ id set, sets id = some set → set.removed = true → set.queue = [] ∨ ∃ task, (tasks task).phase = .removing id

structure Accounts (sets : Sets) (entries : Entries) (adjustments : Adjustments) (trace : List Event) : Prop where
  values : ∀ id set, sets id = some set → ∀ i, 0 ≤ set.value i ∧ set.value i ≤ kernelSEMVMX
  adjusted : ∀ e i, -kernelSEMAEM - 1 ≤ adjustments e i ∧ adjustments e i ≤ kernelSEMAEM
  linked : ∀ e record, entries e = some record → record.linked = true → ∀ i, adjustments e i = -owed record.group record.set i trace
  untouched : ∀ group id, (∀ e record, entries e = some record → ¬ (record.group = group ∧ record.set = id)) →
    (∀ i, owed group id i trace = 0) ∧ Event.applied group id ∉ trace
  pending : ∀ e record, entries e = some record → record.linked = true → Event.applied record.group record.set ∉ trace
  spent : ∀ e record, entries e = some record → record.linked = false → trace.count (.applied record.group record.set) = 1 ∨
      Event.applied record.group record.set ∉ trace ∧ ∃ set, sets record.set = some set ∧ set.removed = true

structure System.Consistent (s : System) : Prop where
  links : Links s.sets s.entries s.groups
  owners : Owners s.tasks s.groups s.entries s.sets
  queues : Queues s.sets s.entries s.adjustments s.tasks
  accounts : Accounts s.sets s.entries s.adjustments s.trace

variable {sets sets' : Sets} {es entries' : Entries} {groups groups' : Groups} {ts tasks' : Tasks}
  {adjs adjustments' : Adjustments} {trace : List Event} {id task i : Nat} {set set' : SemSet}
  {request req : Request} {ph : Phase}

theorem removed_kept (got : sets id = some set) (moves : set.removed = true → set'.removed = true) (pre : sets k = some old) :
    ∃ now, update sets id (some set') k = some now ∧ (old.removed = true → now.removed = true) :=
  update_kept (P := fun y z => y.removed = true → z.removed = true) got moves (fun _ gone => gone) pre

theorem Links.setSet (links : Links sets es groups) (got : sets id = some set) (undo : set'.undo = set.undo)
    (removed : set.removed = true → set'.removed = true) : Links (update sets id (some set')) es groups := by
  refine ⟨fun k found' mem e => ?_, links.inGroup, fun e r old => ?_, links.unique, fun e r old loose => ?_⟩
  · obtain ⟨rfl, ⟨⟩⟩ | ⟨eq, mem⟩ := of_update_eq mem
    · rw [undo]
      exact links.inSet k set got e
    · exact links.inSet k found' mem e
  · obtain ⟨⟨home, here⟩, g⟩ := links.home e r old
    exact ⟨update_known here, g⟩
  · rcases links.unlinked e r old loose with ⟨home, here, gone⟩ | unowned
    · exact .inl (update_has got removed here gone)
    · exact .inr unowned

theorem Links.regroup (links : Links sets es groups) (kept : ∀ id g, groups id = some g → ∃ group', groups' id = some group' ∧
      group'.entries = g.entries ∧ (g.owners = 0 → group'.owners = 0))
    (new : ∀ id g, groups' id = some g → groups id = none → g.entries = []) : Links sets es groups' := by
  refine ⟨links.inSet, fun id g mem e => ?_, fun e r known => ?_, links.unique, fun e r known loose => ?_⟩
  · cases old : groups id with
    | some pre =>
      obtain ⟨group', here, eq, _⟩ := kept id pre old
      rw [mem] at here
      cases here
      rw [eq]
      exact links.inGroup id pre old e
    | none =>
      rw [new id g mem old]
      refine ⟨nofun, fun ⟨r, known, belongs, _⟩ => ?_⟩
      obtain ⟨g, here⟩ := (links.home e r known).2
      rw [belongs, old] at here
      cases here
  · obtain ⟨home, g, here⟩ := links.home e r known
    obtain ⟨group', s', _⟩ := kept _ g here
    exact ⟨home, group', s'⟩
  · rcases links.unlinked e r known loose with gone | ⟨g, here, zero⟩
    · exact .inl gone
    · obtain ⟨group', s', _, still⟩ := kept _ g here
      exact .inr ⟨group', s', still zero⟩

theorem Owns.mono (owns : Owns es ts id req) (kept : ∀ e r, es e = some r → ∃ record', entries' e = some record' ∧
      record'.group = r.group ∧ record'.set = r.set)
    (undo : (tasks' req.task).undo = (ts req.task).undo) : Owns entries' tasks' id req := by
  refine ⟨owns.honest, fun e refers => ?_, owns.covered⟩
  obtain ⟨r, old, at_, belongs⟩ := owns.entry e refers
  obtain ⟨record', s', g, home⟩ := kept e r old
  exact ⟨record', s', home.trans at_, by rw [undo, belongs, g]⟩

theorem PhaseOk.mono (ok : PhaseOk ts groups es sets task) (eq : tasks' task = ts task)
    (kept : ∀ e r, es e = some r → ∃ record', entries' e = some record' ∧ record'.group = r.group ∧ record'.set = r.set)
    (removed : ∀ id set, sets id = some set → ∃ set', sets' id = some set' ∧ (set.removed = true → set'.removed = true))
    (owners : ∀ id g, groups id = some g → ∃ group', groups' id = some group' ∧
      (g.owners = 0 → group'.owners = 0)) : PhaseOk tasks' groups' entries' sets' task := by
  unfold PhaseOk at ok ⊢
  rw [eq]
  cases ph : (ts task).phase with
  | unborn | leaving | dead | finding | inserting => rw [ph] at ok; exact ok
  | idle => trivial
  | parked id => trivial
  | trying id req =>
    rw [ph] at ok
    exact ⟨ok.1, ok.2.mono kept (by rw [ok.1, eq])⟩
  | removing id =>
    rw [ph] at ok
    obtain ⟨set, got, gone⟩ := ok
    obtain ⟨set', s', still⟩ := removed id set got
    exact ⟨set', s', still gone⟩
  | draining id =>
    rw [ph] at ok
    obtain ⟨undo, g, got, zero⟩ := ok
    obtain ⟨group', s', still⟩ := owners id g got
    exact ⟨undo, group', s', still zero⟩
  | detaching id e =>
    rw [ph] at ok
    obtain ⟨undo, ⟨g, got, zero⟩, r, old, belongs⟩ := ok
    obtain ⟨group', s', still⟩ := owners id g got
    obtain ⟨record', knownAfter, sameGroup, _⟩ := kept e r old
    exact ⟨undo, ⟨group', s', still zero⟩, record', knownAfter, sameGroup.trans belongs⟩

section
variable (owners : Owners ts groups es sets)
include owners

theorem Owners.frame (kept : ∀ e r, es e = some r → ∃ record', entries' e = some record' ∧ record'.group = r.group ∧ record'.set = r.set)
    (gone : ∀ id set, sets id = some set → ∃ set', sets' id = some set' ∧ (set.removed = true → set'.removed = true))
    (eq : ∀ id, (groups' id).map UndoGroup.owners = (groups id).map UndoGroup.owners) : Owners ts groups' entries' sets' := by
  refine ⟨fun id g mem => ?_, fun task id holds => ?_, fun task => (owners.phases task).mono rfl kept gone ?_⟩
  · have num := eq id
    rw [mem] at num
    obtain ⟨pre, got, equal⟩ := Option.map_eq_some_iff.mp num.symm
    obtain ⟨hs, nodup, len, ms⟩ := owners.counted id pre got
    exact ⟨hs, nodup, len.trans equal, ms⟩
  · obtain ⟨_, got⟩ := owners.known task id holds
    have num := eq id
    rw [got] at num
    obtain ⟨g, mem, _⟩ := Option.map_eq_some_iff.mp num
    exact ⟨g, mem⟩
  · intro id g got
    have num := eq id
    rw [got] at num
    obtain ⟨group', mem, equal⟩ := Option.map_eq_some_iff.mp num
    exact ⟨group', mem, fun zero => equal.trans zero⟩

theorem Owners.move (stays : ∀ g, (ts task).phase ≠ .leaving g) (moves : ∀ g, ph ≠ .leaving g)
    (ok : PhaseOk (update ts task { ts task with phase := ph }) groups es sets task) :
    Owners (update ts task { ts task with phase := ph }) groups es sets := by
  have held : ∀ k g, Holds (update ts task { ts task with phase := ph }) k g ↔ Holds ts k g := by
    intro k g
    by_cases eq : k = task
    · subst eq
      simp [Holds, stays g, moves g]
    · simp [Holds, update_of_ne eq]
  refine ⟨fun id g mem => ?_, fun k id holds => owners.known k id ((held k id).mp holds), fun k => ?_⟩
  · obtain ⟨hs, nodup, len, ms⟩ := owners.counted id g mem
    exact ⟨hs, nodup, len, fun k => (ms k).trans (held k id).symm⟩
  by_cases eq : k = task
  · rw [eq]
    exact ok
  · exact (owners.phases k).mono (update_of_ne eq _ _) (fun e r old => ⟨r, old, rfl, rfl⟩)
      (fun id set got => ⟨set, got, fun gone => gone⟩) fun id g got => ⟨g, got, fun zero => zero⟩

theorem Owners.owned (holds : Holds ts task g) (got : groups g = some r) : r.owners ≠ 0 := by
  obtain ⟨_, _, len, ms⟩ := owners.counted g r got
  intro zero
  rw [zero, List.length_eq_zero_iff] at len
  have mem := (ms task).mpr holds
  rw [len] at mem
  cases mem

end

theorem Links.linked_of_owns (links : Links sets es groups) (owners : Owners ts groups es sets)
    (owns : Owns es ts id req) (got : sets id = some set) (live : set.removed = false) (refers : req.undo = some e) :
    ∃ r, es e = some r ∧ r.set = id ∧ r.linked = true ∧ (ts req.task).undo = some r.group := by
  obtain ⟨r, old, home, belongs⟩ := owns.entry e refers
  refine ⟨r, old, home, ?_, belongs⟩
  cases linked : r.linked with
  | true => rfl
  | false =>
    rcases links.unlinked e r old linked with ⟨k, mem, gone⟩ | ⟨g, mem, zero⟩
    · rw [home, got] at mem
      cases mem
      rw [live] at gone
      cases gone
    · exact absurd zero (owners.owned (.inl belongs) mem)

theorem Queues.retask (qs : Queues sets es adjs ts)
    (queued : ∀ id set, sets id = some set → ∀ req ∈ set.queue, tasks' req.task = ts req.task)
    (removing : ∀ k id set, (ts k).phase = .removing id → sets id = some set → (tasks' k).phase = .removing id ∨ set.queue = []) :
    Queues sets es adjs tasks' := by
  refine ⟨fun id set got req mem => ?_, qs.stuck, fun id set got gone => ?_⟩
  · obtain ⟨owns, parked⟩ := qs.parked id set got req mem
    have eq := queued id set got req mem
    exact ⟨owns.mono (fun e r old => ⟨r, old, rfl, rfl⟩) (by rw [eq]), by rw [eq, parked]⟩
  rcases qs.drained id set got gone with empty | ⟨k, ph⟩
  · exact .inl empty
  rcases removing k id set ph got with still | empty
  · exact .inr ⟨k, still⟩
  · exact .inl empty

theorem Queues.setSet (qs : Queues sets es adjs ts)
    (kept : ∀ e r, es e = some r → ∃ record', entries' e = some record' ∧ record'.group = r.group ∧ record'.set = r.set)
    (away : ∀ e r, es e = some r → r.set ≠ id → adjustments' e = adjs e)
    (parked : ∀ req ∈ set'.queue, Owns es ts id req ∧ (ts req.task).phase = .parked id)
    (stuck : ∀ req ∈ set'.queue, req.Stuck set'.value (req.adjustment adjustments'))
    (drained : set'.removed = true → set'.queue = [] ∨ ∃ task, (ts task).phase = .removing id) :
    Queues (update sets id (some set')) entries' adjustments' ts := by
  refine ⟨fun k got there req mem => ?_, fun k got there req mem => ?_, fun k got there gone => ?_⟩
  · obtain ⟨rfl, ⟨⟩⟩ | ⟨eq, there⟩ := of_update_eq there
    · obtain ⟨owns, waits⟩ := parked req mem
      exact ⟨owns.mono kept rfl, waits⟩
    · obtain ⟨owns, waits⟩ := qs.parked k got there req mem
      exact ⟨owns.mono kept rfl, waits⟩
  · obtain ⟨rfl, ⟨⟩⟩ | ⟨eq, there⟩ := of_update_eq there
    · exact stuck req mem
    · have pre := qs.stuck k got there req mem
      have unchanged : req.adjustment adjustments' = req.adjustment adjs := by
        unfold Request.adjustment
        cases refers : req.undo with
        | none => rfl
        | some e =>
          obtain ⟨r, old, home, _⟩ := (qs.parked k got there req mem).1.entry e refers
          exact away e r old (by rwa [home])
      rw [unchanged]
      exact pre
  · obtain ⟨rfl, ⟨⟩⟩ | ⟨eq, there⟩ := of_update_eq there
    · exact drained gone
    · exact qs.drained k got there gone

end BoarOS.Sem
