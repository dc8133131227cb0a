import BoarOS.Sem.Sections

namespace BoarOS.Sem
open Data Function List Sem.System

/-! # Every section keeps the invariants -/

variable {sets : Sets} {es : Entries} {groups : Groups} {ts : Tasks} {adjs : Adjustments}
  {trace : List Event} {s s' : System} {id task e : Nat} {set set' : SemSet} {group : UndoGroup} {ph : Phase}
  {rc : UndoEntry} {req : Request}

theorem Links.unlink (links : Links sets es groups) (known : es e = some rc) (got : sets rc.set = some set)
    (mem : groups rc.group = some group) (why : set.removed = true ∨ group.owners = 0) :
    Links (update sets rc.set (some { set with undo := set.undo.filter (· ≠ e) })) (update es e (some { rc with linked := false }))
      (update groups rc.group (some { group with entries := group.entries.filter (· ≠ e) })) := by
  have hangs : ∀ f (has : UndoEntry → Prop), (∃ r, update es e (some { rc with linked := false }) f = some r ∧ has r ∧ r.linked = true) ↔
        f ≠ e ∧ ∃ r, es f = some r ∧ has r ∧ r.linked = true := by
    intro f has
    by_cases equal : f = e
    · subst equal
      simp
    · simp [equal]
  have later : ∀ f r, update es e (some { rc with linked := false }) f = some r →
      ∃ old, es f = some old ∧ old.group = r.group ∧ old.set = r.set ∧ (f ≠ e → old = r) := by
    intro f r here
    obtain ⟨rfl, ⟨⟩⟩ | ⟨equal, here⟩ := of_update_eq here
    · exact ⟨rc, known, rfl, rfl, fun wrong => absurd rfl wrong⟩
    · exact ⟨r, here, rfl, rfl, fun _ => rfl⟩
  refine ⟨fun home set' here f => ?_, fun home group' here f => ?_, fun f r here => ?_,
    fun f g r snd here hereSecond sameGroup sameSet => ?_, fun f r here loose => ?_⟩
  · rw [hangs f fun r => r.set = home]
    obtain ⟨rfl, ⟨⟩⟩ | ⟨eq, here⟩ := of_update_eq here
    · simp only [mem_filter, links.inSet rc.set set got f, decide_eq_true_eq]
      exact and_comm
    rw [links.inSet home set' here f]
    refine ⟨fun ⟨r, old, at_, link⟩ => ⟨?_, r, old, at_, link⟩, fun both => both.2⟩
    rintro rfl
    rw [known] at old
    cases old
    exact eq at_.symm
  · rw [hangs f fun r => r.group = home]
    obtain ⟨rfl, ⟨⟩⟩ | ⟨eq, here⟩ := of_update_eq here
    · simp only [mem_filter, links.inGroup rc.group group mem f, decide_eq_true_eq]
      exact and_comm
    rw [links.inGroup home group' here f]
    refine ⟨fun ⟨r, old, at_, link⟩ => ⟨?_, r, old, at_, link⟩, fun both => both.2⟩
    rintro rfl
    rw [known] at old
    cases old
    exact eq at_.symm
  · obtain ⟨old, pre, sameGroup, sameSet, _⟩ := later f r here
    obtain ⟨⟨set', home⟩, group', homeGroup⟩ := links.home f old pre
    rw [← sameGroup, ← sameSet]
    exact ⟨update_known home, update_known homeGroup⟩
  · obtain ⟨old, pre, group₁, set₁, _⟩ := later f r here
    obtain ⟨oldSecond, beforeSecond, group₂, set₂, _⟩ := later g snd hereSecond
    exact links.unique f g old oldSecond pre beforeSecond (by rw [group₁, group₂, sameGroup]) (by rw [set₁, set₂, sameSet])
  · obtain ⟨old, pre, sameGroup, sameSet, unchanged⟩ := later f r here
    have reasons : (∃ set, sets old.set = some set ∧ set.removed = true) ∨ ∃ group, groups old.group = some group ∧ group.owners = 0 := by
      by_cases equal : f = e
      · subst equal
        rw [known] at pre
        cases pre
        rcases why with gone | zero
        · exact .inl ⟨set, got, gone⟩
        · exact .inr ⟨group, mem, zero⟩
      · rw [← unchanged equal] at loose
        exact links.unlinked f old pre loose
    rw [← sameGroup, ← sameSet]
    rcases reasons with ⟨set', home, gone⟩ | ⟨group', home, zero⟩
    · exact .inl (update_has got (fun gone => gone) home gone)
    · exact .inr (update_has mem (fun zero => zero) home zero)

theorem Accounts.unlink (accs : Accounts sets es adjs trace) (links : Links sets es groups) (known : es e = some rc)
    (hangs : rc.linked = true) (got : sets rc.set = some set)
    (booked : trace' = trace ∧ set.removed = true ∨ trace' = .applied rc.group rc.set :: trace) :
    Accounts sets (update es e (some { rc with linked := false })) adjs trace' := by
  have owes : ∀ group home i, owed group home i trace' = owed group home i trace := by
    intro group home i
    rcases booked with ⟨rfl, _⟩ | rfl
    · rfl
    · rfl
  have away : ∀ group home, ¬ (rc.group = group ∧ rc.set = home) → (Event.applied group home ∉ trace → Event.applied group home ∉ trace') ∧
        trace'.count (.applied group home) = trace.count (.applied group home) := by
    intro group home ne
    rcases booked with ⟨rfl, _⟩ | rfl
    · exact ⟨fun never => never, rfl⟩
    refine ⟨fun never => ?_, count_cons_of_ne ?_⟩
    · rw [mem_cons, not_or]
      refine ⟨fun eq => ne ?_, never⟩
      cases eq
      exact ⟨rfl, rfl⟩
    · intro eq
      cases eq
      exact ne ⟨rfl, rfl⟩
  have apart : ∀ f r, f ≠ e → es f = some r → ¬ (rc.group = r.group ∧ rc.set = r.set) :=
    fun f r ne old both => ne (links.unique f e r rc old known both.1.symm both.2.symm)
  refine ⟨accs.values, accs.adjusted, fun f r here link i => ?_, fun group home out => ?_,
    fun f r here link => ?_, fun f r here loose => ?_⟩
  · obtain ⟨rfl, ⟨⟩⟩ | ⟨_, old⟩ := of_update_eq here
    · cases link
    · rw [owes]
      exact accs.linked f r old link i
  · have none_ : ∀ f r, es f = some r → ¬ (r.group = group ∧ r.set = home) := by
      intro f r old both
      by_cases equal : f = e
      · subst equal
        rw [known] at old
        cases old
        exact out f _ (update_self _ _ _) both
      · exact out f r (by rw [update_of_ne equal, old]) both
    obtain ⟨nothing, never⟩ := accs.untouched group home none_
    exact ⟨fun i => (owes group home i).trans (nothing i), (away group home (none_ e rc known)).1 never⟩
  · obtain ⟨rfl, ⟨⟩⟩ | ⟨ne, old⟩ := of_update_eq here
    · cases link
    · exact (away _ _ (apart f r ne old)).1 (accs.pending f r old link)
  · obtain ⟨rfl, ⟨⟩⟩ | ⟨ne, old⟩ := of_update_eq here
    · have never := accs.pending f rc known hangs
      rcases booked with ⟨rfl, gone⟩ | rfl
      · exact .inr ⟨never, set, got, gone⟩
      left
      rw [count_cons_self, count_eq_zero.mpr never]
    · obtain ⟨keeps, n⟩ := away _ _ (apart f r ne old)
      rcases accs.spent f r old loose with once | ⟨never, rest⟩
      · exact .inl (n.trans once)
      · exact .inr ⟨keeps never, rest⟩

theorem System.Consistent.unlink (inv : s.Consistent) (known : s.entries e = some rc) (hangs : rc.linked = true)
    (got : s.sets rc.set = some set) (mem : s.groups rc.group = some group)
    (booked : trace' = s.trace ∧ set.removed = true ∨ trace' = .applied rc.group rc.set :: s.trace ∧ group.owners = 0) :
    ({ s.undoUnlink e rc with trace := trace' } : System).Consistent ∧
      (s.undoUnlink e rc).sets rc.set = some { set with undo := set.undo.filter (· ≠ e) } := by
  have sets' : (s.undoUnlink e rc).sets = update s.sets rc.set (some { set with undo := set.undo.filter (· ≠ e) }) := by
    rw [undoUnlink, got]
    rfl
  have groups' : (s.undoUnlink e rc).groups = update s.groups rc.group (some { group with entries := group.entries.filter (· ≠ e) }) := by
    rw [undoUnlink, mem]
    rfl
  have kept : ∀ f old, s.entries f = some old → ∃ r, (s.undoUnlink e rc).entries f = some r ∧ r.group = old.group ∧ r.set = old.set := by
    intro f old pre
    rw [undoUnlink]
    dsimp only
    refine update_kept (P := fun y z => z.group = y.group ∧ z.set = y.set) known ?_ (fun _ => ⟨rfl, rfl⟩) pre
    exact ⟨rfl, rfl⟩
  have why : set.removed = true ∨ group.owners = 0 := booked.imp And.right And.right
  have links := inv.links.unlink known got mem why
  have spent := inv.accounts.unlink inv.links known hangs got (booked.imp_right And.left)
  have accs : Accounts (update s.sets rc.set (some { set with undo := set.undo.filter (· ≠ e) })) _ s.adjustments trace' :=
    spent.setSet got (inv.accounts.values _ set got) fun gone => gone
  refine ⟨⟨?_, ?_, ?_, ?_⟩, ?_⟩
  · rw [sets', groups']
    exact links
  · refine inv.owners.frame kept (fun k old pre => ?_) fun k => ?_
    · rw [sets']
      exact removed_kept got (fun gone => gone) pre
    · rw [groups']
      by_cases eq : k = rc.group
      · subst eq
        rw [update_self, mem]
        rfl
      · rw [update_of_ne eq]
  · rw [sets']
    exact inv.queues.setSet kept (fun _ _ _ _ => rfl) (inv.queues.parked _ set got)
      (inv.queues.stuck _ set got) (inv.queues.drained _ set got)
  · rw [sets']
    exact accs
  · rw [sets', update_self]

theorem Owners.change {next : Task} (owners : Owners ts groups es sets)
    (rest : ∀ k, k ≠ id → (Holds (update ts task next) task k ↔ Holds ts task k))
    (hs : ∃ hs : List Nat, hs.Nodup ∧ hs.length = group'.owners ∧ ∀ k, k ∈ hs ↔ Holds (update ts task next) k id)
    (zero : ∀ group, groups id = some group → group.owners = 0 → group'.owners = 0)
    (ok : PhaseOk (update ts task next) (update groups id (some group')) es sets task) :
    Owners (update ts task next) (update groups id (some group')) es sets := by
  have away : ∀ k mem, k ≠ task → (Holds (update ts task next) k mem ↔ Holds ts k mem) := by
    intro k mem ne
    simp only [Holds, update_of_ne ne]
  refine ⟨fun mem group here => ?_, fun k mem holds => ?_, fun k => ?_⟩
  · obtain ⟨rfl, ⟨⟩⟩ | ⟨eq, here⟩ := of_update_eq here
    · exact hs
    · obtain ⟨list, nodup, len, ms⟩ := owners.counted mem group here
      refine ⟨list, nodup, len, fun k => (ms k).trans ?_⟩
      by_cases mover : k = task
      · rw [mover]
        exact (rest mem eq).symm
      · exact (away k mem mover).symm
  · by_cases eq : mem = id
    · exact ⟨group', by rw [eq, update_self]⟩
    · have pre : Holds ts k mem := by
        by_cases mover : k = task
        · rw [mover] at holds ⊢
          exact (rest mem eq).mp holds
        · exact (away k mem mover).mp holds
      obtain ⟨group, got⟩ := owners.known k mem pre
      exact ⟨group, by rw [update_of_ne eq, got]⟩
  · by_cases mover : k = task
    · rw [mover]
      exact ok
    · refine (owners.phases k).mono (update_of_ne mover _ _) (fun e rc old => ⟨rc, old, rfl, rfl⟩)
        (fun mem set got => ⟨set, got, fun gone => gone⟩) fun mem group got => ?_
      by_cases eq : mem = id
      · subst eq
        exact ⟨group', update_self _ _ _, zero group got⟩
      · exact ⟨group, by rw [update_of_ne eq, got], fun still => still⟩

theorem Links.regroup_one (links : Links sets es groups) (entries_ : group'.entries = ((groups id).map UndoGroup.entries).getD [])
    (zero : ∀ group, groups id = some group → group.owners = 0 → group'.owners = 0) : Links sets es (update groups id (some group')) := by
  refine links.regroup (fun k group got => ?_) fun k group got out => ?_
  · by_cases eq : k = id
    · subst eq
      rw [got] at entries_
      exact ⟨group', update_self _ _ _, entries_, zero group got⟩
    · exact ⟨group, by rw [update_of_ne eq, got], rfl, fun still => still⟩
  by_cases eq : k = id
  · subst eq
    rw [update_self] at got
    cases got
    rw [entries_, out]
    rfl
  · rw [update_of_ne eq, out] at got
    cases got

theorem System.Consistent.change {next : Task} (inv : s.Consistent) (away : ∀ id, (s.tasks task).phase ≠ .parked id)
    (still : ∀ id, (s.tasks task).phase ≠ .removing id) (entries_ : group'.entries = ((s.groups id).map UndoGroup.entries).getD [])
    (rest : ∀ k, k ≠ id → (Holds (update s.tasks task next) task k ↔ Holds s.tasks task k))
    (hs : ∃ hs : List Nat, hs.Nodup ∧ hs.length = group'.owners ∧ ∀ k, k ∈ hs ↔ Holds (update s.tasks task next) k id)
    (zero : ∀ group, s.groups id = some group → group.owners = 0 → group'.owners = 0)
    (ok : PhaseOk (update s.tasks task next) (update s.groups id (some group')) s.entries s.sets task) : ({ s with
      groups := update s.groups id (some group')
      tasks := update s.tasks task next } : System).Consistent := by
  refine ⟨inv.links.regroup_one entries_ zero, inv.owners.change rest hs zero ok, ?_, inv.accounts⟩
  refine inv.queues.retask (fun there set got req mem => ?_) fun k there set ph got => ?_
  · exact update_of_ne (inv.unqueued away there set got req mem) _ _
  have ne : k ≠ task := by
    rintro rfl
    exact still there ph
  left
  dsimp only
  rw [update_of_ne ne, ph]

theorem System.Consistent.putSet (inv : s.Consistent) (got : s.sets id = some set) (undo : set'.undo = set.undo)
    (removed : set.removed = true → set'.removed = true) (v : set'.value = set.value) (q : ∀ req ∈ set'.queue, req ∈ set.queue)
    (drained : set'.removed = true → set'.queue = [] ∨ ∃ task, (s.tasks task).phase = .removing id) : (s.putSet id set').Consistent := by
  refine ⟨inv.links.setSet got undo removed, inv.owners.frame (fun e rc old => ⟨rc, old, rfl, rfl⟩) (fun k there here => ?_) fun _ => rfl,
    inv.queues.setSet (fun e rc old => ⟨rc, old, rfl, rfl⟩) (fun _ _ _ _ => rfl)
      (fun req mem => inv.queues.parked id set got req (q req mem))
      (fun req mem => ?_) drained,
    inv.accounts.setSet got ?_ removed⟩
  · exact removed_kept got removed here
  · rw [v]
    exact inv.queues.stuck id set got req (q req mem)
  · rw [v]
    exact inv.accounts.values id set got

theorem System.Consistent.dequeue (inv : s.Consistent) (got : s.sets id = some set) :
    (s.dequeue task id set).Consistent ∧ ((s.tasks task).phase = .parked id →
        ∀ k there, (s.dequeue task id set).sets k = some there → ∀ req ∈ there.queue, req.task ≠ task) := by
  refine ⟨inv.putSet got rfl (fun gone => gone) rfl
    (fun req mem => (mem_filter.mp mem).1) fun gone => ?_, fun parked k there here req mem => ?_⟩
  · rcases inv.queues.drained id set got gone with empty | removing
    · exact .inl (by simp [empty])
    · exact .inr removing
  rw [System.dequeue, System.putSet] at here
  by_cases eq : k = id
  · subst eq
    dsimp only at here
    rw [update_self] at here
    cases here
    simpa using (mem_filter.mp mem).2
  dsimp only at here
  rw [update_of_ne eq] at here
  rintro rfl
  have waits := (inv.queues.parked k there here req mem).2
  rw [parked] at waits
  cases waits
  exact eq rfl

def Phase.Plain : Phase → Prop
  | .parked _ | .leaving _ | .removing _ => False
  | _ => True

theorem System.Consistent.advance (inv : s.Consistent) (here : (s.tasks task).phase.Plain) (moves : ∀ group, ph ≠ .leaving group)
    (ok : PhaseOk (s.setPhase task ph).tasks s.groups s.entries s.sets task) : (s.setPhase task ph).Consistent := by
  refine inv.move (inv.unqueued fun id parked => ?_) (fun group leaving => ?_) moves (fun id set removing => ?_) ok
  · rw [parked] at here
    exact here
  · rw [leaving] at here
    exact here.elim
  · rw [removing] at here
    exact here.elim

theorem phaseOk_idle : PhaseOk (s.setPhase task .idle).tasks groups es sets task := by
  simp [PhaseOk, setPhase]

theorem System.Consistent.undoFind_some (inv : s.Consistent) (mem : s.groups gid = some group)
    (got : s.undoFind group id = some e) : ∃ rc, s.entries e = some rc ∧ rc.set = id ∧ rc.group = gid := by
  obtain ⟨rc, old, belongs, _⟩ := (inv.links.inGroup gid group mem e).mp (mem_of_find?_eq_some got)
  have tested := find?_some got
  simp only [old, Option.any_some, Bool.and_eq_true, beq_iff_eq] at tested
  exact ⟨rc, old, tested.2, belongs⟩

theorem System.Consistent.undoFind_none (inv : s.Consistent) (there : s.groups gid = some group)
    (out : s.undoFind group id = none) : ∀ f rc, s.entries f = some rc → rc.linked = true → rc.group = gid → rc.set ≠ id := by
  intro f rc old link belongs home
  have mem := (inv.links.inGroup gid group there f).mpr ⟨rc, old, belongs, link⟩
  have tested := find?_eq_none.mp out f mem
  simp [old, link, home] at tested

end BoarOS.Sem
