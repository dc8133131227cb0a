import BoarOS.Sem.Runs

namespace BoarOS.Sem
open List Option Sem.System

/-! # Wakeups and accounting of `SEM_UNDO` -/

variable {s after : System} {id : Nat} {set : SemSet}

/-- Whether `GETZCNT`, or `GETNCNT`, counts a queued request for a member. -/
def Request.counted (request : Request) (num : Nat) (zero : Bool) : Bool :=
  match request.ops[request.blocking]? with
  | some op => op.num == num && (if zero then op.amount == 0 else op.amount < 0)
  | none => false

def SemSet.count (set : SemSet) (num : Nat) (zero : Bool) : Nat := set.queue.countP fun request => request.counted num zero

def System.run (s : System) : List Step → Option System
  | [] => some s
  | step :: rest => (s.step step).bind fun after => after.run rest

theorem System.Reachable.run (run : s.Reachable) (ran : s.run steps = some after) : after.Reachable := by
  induction steps generalizing s with
  | nil =>
    cases ran
    exact run
  | cons step rest ih =>
    obtain ⟨_, stepped, later⟩ := bind_eq_some_iff.mp ran
    exact ih (.step run stepped) later

def System.adjustmentOf (s : System) (group : UndoGroup) (id i : Nat) : Int :=
  ((s.undoFind group id).map fun e => s.adjustments e i).getD 0

theorem System.Consistent.adjustmentOf {gid : Nat} {g : UndoGroup} (inv : s.Consistent) (mem : s.groups gid = some g) (owned : g.owners ≠ 0)
    (got : s.sets id = some set) (live : set.removed = false) (i : Nat) : s.adjustmentOf g id i = -owed gid id i s.trace := by
  rw [System.adjustmentOf]
  cases hit : s.undoFind g id with
  | some e =>
    obtain ⟨r, old, home, belongs⟩ := inv.undoFind_some mem hit
    have link : r.linked = true := by
      cases link : r.linked with
      | true => rfl
      | false =>
        rcases inv.links.unlinked e r old link with ⟨ne, here, gone⟩ | ⟨ne, here, zero⟩
        · rw [home, got] at here
          cases here
          rw [live] at gone
          cases gone
        · rw [belongs, mem] at here
          cases here
          exact absurd zero owned
    have acc := inv.accounts.linked e r old link i
    rw [belongs, home] at acc
    exact acc
  | none =>
    have out : ∀ f r, s.entries f = some r → ¬ (r.group = gid ∧ r.set = id) := by
      rintro f r old ⟨belongs, home⟩
      cases link : r.linked with
      | true => exact inv.undoFind_none mem hit f r old link belongs home
      | false =>
        rcases inv.links.unlinked f r old link with ⟨_, here, gone⟩ | ⟨_, here, zero⟩
        · rw [home, got] at here
          cases here
          rw [live] at gone
          cases gone
        · rw [belongs, mem] at here
          cases here
          exact owned zero
    rw [(inv.accounts.untouched gid id out).1 i]
    rfl

/-- The set with what a group owes given back, each value kept within its bounds. -/
def SemSet.restored (set : SemSet) (debt : Nat → Int) (pid : Nat) (now : Int) : SemSet :=
  { set with
    value := fun i => if i < set.nsems then max 0 (min kernelSEMVMX (set.value i - debt i)) else set.value i
    pid := fun i => if i < set.nsems ∧ debt i ≠ 0 then some pid else set.pid i
    otime := now }

theorem undone_eq {adj debt : Nat → Int} {pid : Nat} {now : Int} (owes : ∀ i, adj i = -debt i)
    (values : ∀ i, 0 ≤ set.value i ∧ set.value i ≤ kernelSEMVMX) : undone set adj pid now = set.restored debt pid now := by
  have cells : ∀ i, (undone set adj pid now).value i = (set.restored debt pid now).value i ∧
      (undone set adj pid now).pid i = (set.restored debt pid now).pid i := by
    intro i
    have bounds := values i
    dsimp only [undone, SemSet.restored]
    have nonzero : (-debt i ≠ 0) = (debt i ≠ 0) := propext (by omega)
    simp only [owes, nonzero]
    refine ⟨?_, trivial⟩
    split_ifs <;> omega
  unfold undone SemSet.restored at cells ⊢
  congr 1
  · exact funext fun i => (cells i).1
  · exact funext fun i => (cells i).2

/-- An adjustment is minus what the group has taken since the member was last set. The last owner of a group gives
each adjustment back once, to a set that is still there, and nothing keeps it from doing so; any other owner leaves
without changing anything. -/
theorem undo_accounting (reachable : s.Reachable) : (∀ id set, s.sets id = some set → ∀ i, 0 ≤ set.value i ∧ set.value i ≤ kernelSEMVMX) ∧
    (∀ e i, -kernelSEMAEM - 1 ≤ s.adjustments e i ∧ s.adjustments e i ≤ kernelSEMAEM) ∧
    (∀ groupId group id set i, s.groups groupId = some group → group.owners ≠ 0 → s.sets id = some set →
      set.removed = false → s.adjustmentOf group id i = -owed groupId id i s.trace) ∧
    (∀ task groupId group, (s.tasks task).phase = .leaving groupId → s.groups groupId = some group →
      ∃ after, s.step (.leave task) = some after ∧ after.sets = s.sets ∧ after.entries = s.entries ∧
        after.adjustments = s.adjustments ∧ after.trace = s.trace ∧
        (after.tasks task).phase = if group.owners = 1 then .draining groupId else .dead) ∧
    (∀ task groupId e record set pid now, (s.tasks task).phase = .detaching groupId e →
      s.entries e = some record → s.sets record.set = some set →
      ∃ after, s.step (.detach task pid now) = some after ∧ (after.tasks task).phase = .draining groupId ∧
      (record.linked = true → set.removed = false → ∃ update,
        setUpdate now ({ set with undo := set.undo.filter (· ≠ e) }.restored (owed groupId record.set · s.trace) pid now)
          s.adjustments [] = some update ∧ after.sets record.set = some update.set ∧
        after.trace.count (.applied groupId record.set) = s.trace.count (.applied groupId record.set) + 1) ∧
      (record.linked = false ∨ set.removed = true → after.trace = s.trace ∧
        ∀ id, (after.sets id).map SemSet.value = (s.sets id).map SemSet.value)) ∧
    (∀ e record, s.entries e = some record → (record.linked = true → Event.applied record.group record.set ∉ s.trace) ∧
      (record.linked = false → s.trace.count (.applied record.group record.set) = 1 ∨
        Event.applied record.group record.set ∉ s.trace ∧ ∃ set, s.sets record.set = some set ∧ set.removed = true)) ∧
    ∀ task groupId, (s.tasks task).phase = .draining groupId → ∃ after, s.step (.pick task) = some after ∧
      ((after.tasks task).phase = .dead ∧ (∀ e record, s.entries e = some record → record.group = groupId → record.linked = false) ∨
        ∃ e record set, (after.tasks task).phase = .detaching groupId e ∧ s.entries e = some record ∧ record.group = groupId ∧
          record.linked = true ∧ s.sets record.set = some set) := by
  have inv := reachable.consistent
  refine ⟨inv.accounts.values, inv.accounts.adjusted, fun groupId group id set i there owned got live =>
    inv.adjustmentOf there owned got live i, fun task groupId group leaving there => ?_, ?_,
    fun e record old => ⟨inv.accounts.pending e record old, inv.accounts.spent e record old⟩, ?_⟩
  · have owned := inv.owners.owned (.inr leaving) there
    have ran : s.step (.leave task) = some { s with
        groups := Function.update s.groups groupId (some { group with owners := group.owners - 1 })
        tasks := Function.update s.tasks task
          { s.tasks task with phase := if group.owners = 1 then .draining groupId else .dead } } := by
      unfold step
      simp only [leaving, there, if_neg owned]
    exact ⟨_, ran, rfl, rfl, rfl, rfl, by simp⟩
  · intro task groupId e record set pid now cur old got
    have ok := inv.owners.phases task
    rw [PhaseOk, cur] at ok
    obtain ⟨_, _, _, known, belongs⟩ := ok
    cases old.symm.trans known
    subst belongs
    have free : ((s.setPhase task (.draining record.group)).tasks task).phase = .draining record.group := by simp [setPhase]
    have here : ((s.setPhase task (.draining record.group)).undoUnlink e record).sets record.set =
        some { set with undo := set.undo.filter (· ≠ e) } := by
      have there : (s.setPhase task (.draining record.group)).sets record.set = some set := got
      rw [undoUnlink, there]
      simp
    have step_eq : s.step (.detach task pid now) = s.detach task record.group e record pid now := by
      unfold step
      simp only [cur, old]
    rw [step_eq]
    dsimp only [detach]
    cases link : record.linked with
    | false =>
      refine ⟨_, if_pos rfl, free, by simp, fun _ => ⟨rfl, fun _ => rfl⟩⟩
    | true =>
      rw [if_neg (by simp), here]
      dsimp only
      by_cases gone : set.removed = true
      · refine ⟨_, if_pos gone, free, fun _ live => ?_, fun _ => ⟨rfl, fun id => ?_⟩⟩
        · cases gone.symm.trans live
        by_cases eq : id = record.set
        · subst eq
          rw [here, got]
          rfl
        rw [undoUnlink]
        dsimp only
        rw [Function.update_of_ne eq]
        rfl
      · have given := @undone_eq { set with undo := set.undo.filter (· ≠ e) } _ _ pid now (inv.accounts.linked e record old link)
          (inv.accounts.values _ set got)
        rw [if_neg gone, given]
        obtain ⟨update, updated⟩ := updateLoop_ends (Nat.lt_succ_self _)
        refine ⟨_, Option.map_eq_some_iff.mpr ⟨update, updated, rfl⟩, free, fun _ _ => ⟨update, updated, by simp [commit], ?_⟩,
          fun idle => absurd (idle.resolve_left (by simp)) gone⟩
        have none_ : (((s.setPhase task (.draining record.group)).undoUnlink e record).events record.set
            update.wake).count (.applied record.group record.set) = 0 := by
          refine count_eq_zero.mpr fun mem => ?_
          obtain ⟨_, _, wrong⟩ := mem_map.mp mem
          cases wrong
        dsimp only
        rw [count_append, none_, count_cons_self, Nat.zero_add]
  · intro task groupId cur
    have ok := inv.owners.phases task
    rw [PhaseOk, cur] at ok
    obtain ⟨_, group, there, _⟩ := ok
    have members := inv.links.inGroup groupId group there
    unfold step
    simp only [cur, there]
    cases listed : group.entries with
    | nil =>
      refine ⟨_, rfl, .inl ⟨by simp [setPhase], fun e record old belongs => ?_⟩⟩
      cases link : record.linked with
      | false => rfl
      | true =>
        have mem := (members e).mpr ⟨record, old, belongs, link⟩
        rw [listed] at mem
        cases mem
    | cons e rest =>
      obtain ⟨record, old, belongs, link⟩ := (members e).mp (by rw [listed]; exact .head _)
      obtain ⟨⟨set, got⟩, _⟩ := inv.links.home e record old
      exact ⟨_, rfl, .inr ⟨e, record, set, by simp [setPhase], old, belongs, link, got⟩⟩

def Phase.detaches : Phase → Option (Nat × Nat)
  | .detaching group entry => some (group, entry)
  | _ => none

theorem Phase.eq_of_detaches {phase : Phase} {group entry : Nat} (found : phase.detaches = some (group, entry)) :
    phase = .detaching group entry := by
  cases phase <;> cases found
  rfl

/-- A task that has added three with `SEM_UNDO` owes minus three, and its exit takes them back. -/
theorem undo_accounting_added :
    ∃ (s : System) (group : UndoGroup) (exiting after : System), s.Reachable ∧ s.groups 0 = some group ∧ s.adjustmentOf group 0 0 = -3 ∧
      s.run [.exit 0, .leave 0, .pick 0] = some exiting ∧ exiting.step (.detach 0 7 9) = some after ∧
      (after.sets 0).map (·.value 0) = some 0 ∧ Event.applied 0 0 ∈ after.trace := by
  have old : ((initial.run [.create 0 1, .openGroup 0 0, .start 0 0 [⟨0, 3, kernelSEMUNDO⟩] 7, .find 0 true,
      .insert 0 0, .attempt 0 true false 5]).bind fun s => (s.groups 0).bind fun group => (s.sets 0).bind fun set =>
        (s.run [.exit 0, .leave 0, .pick 0]).bind fun exiting => (exiting.entries 0).bind fun record => (exiting.sets record.set).bind fun live =>
        (exiting.step (.detach 0 7 9)).map fun after => decide (group.owners = 1 ∧ set.removed = false ∧ owed 0 0 0 s.trace = 3 ∧
          (exiting.tasks 0).phase.detaches = some (0, 0) ∧ record.set = 0 ∧ record.linked = true ∧ live.removed = false ∧
          (after.sets 0).map (·.value 0) = some 0 ∧ exiting.trace.count (.applied 0 0) = 0)) = some true := by decide +kernel
  obtain ⟨s, ran, rest⟩ := bind_eq_some_iff.mp old
  obtain ⟨group, mem, rest⟩ := bind_eq_some_iff.mp rest
  obtain ⟨set, got, rest⟩ := bind_eq_some_iff.mp rest
  obtain ⟨exiting, leaves, rest⟩ := bind_eq_some_iff.mp rest
  obtain ⟨record, entry, rest⟩ := bind_eq_some_iff.mp rest
  obtain ⟨live, there, rest⟩ := bind_eq_some_iff.mp rest
  obtain ⟨after, stepped, fields⟩ := map_eq_some_iff.mp rest
  have fields := of_decide_eq_true fields
  obtain ⟨owners, kept, debt, cur, home, linked, present, value, before⟩ := fields
  have run := Reachable.initial.run ran
  refine ⟨s, group, exiting, after, run, mem, ?_, leaves, stepped, value, ?_⟩
  · rw [(undo_accounting run).2.2.1 0 group 0 set 0 mem (by rw [owners]; decide) got kept, debt]
  · obtain ⟨same, ends, _, applied, _⟩ := (undo_accounting (run.run leaves)).2.2.2.2.1 0 0 0 record live 7 9 (Phase.eq_of_detaches cur) entry there
    cases stepped.symm.trans ends
    obtain ⟨_, _, _, count⟩ := applied linked present
    rw [home, before] at count
    exact count_pos_iff.mp (by omega)

end BoarOS.Sem
