import BoarOS.Sem.Steps

namespace BoarOS.Sem
open Data Function List Option

/-! # Runs of the semaphore system -/

variable {s s' : System} {id task e : Nat} {set : SemSet} {g : UndoGroup} {rc : UndoEntry}
  {req : Request} {now : Int}

theorem System.Consistent.create (inv : s.Consistent) (new : s.sets id = none) (nsems : Nat) : (s.putSet id
      { nsems := nsems, value := fun _ => 0, pid := fun _ => none, otime := 0, ctime := 0, removed := false
        undo := [], queue := [] }).Consistent := by
  have away : ∀ k mem, s.sets k = some mem → k ≠ id := by
    rintro k mem got rfl
    rw [new] at got
    cases got
  have kept : ∀ k mem, s.sets k = some mem → (s.putSet id
      { nsems := nsems, value := fun _ => 0, pid := fun _ => none, otime := 0, ctime := 0, removed := false
        undo := [], queue := [] }).sets k = some mem := by
    intro k mem got
    rw [← got]
    exact update_of_ne (away k mem got) _ _
  refine ⟨⟨fun k mem got f => ?_, inv.links.inGroup, fun f rc old => ?_, inv.links.unique,
    fun f rc old loose => ?_⟩, inv.owners.frame (fun f rc old => ⟨rc, old, rfl, rfl⟩)
      (fun k mem got => ⟨mem, kept k mem got, fun gone => gone⟩) fun _ => rfl,
    inv.queues.setSet (fun f rc old => ⟨rc, old, rfl, rfl⟩) (fun _ _ _ _ => rfl) (by simp) (by simp) (by simp),
    inv.accounts.resize (fun k mem got => ?_) fun k mem got gone =>
      ⟨mem, kept k mem got, gone⟩⟩
  · rw [System.putSet] at got
    dsimp only at got
    obtain ⟨rfl, ⟨⟩⟩ | ⟨eq, got⟩ := of_update_eq got
    · refine ⟨by simp, ?_⟩
      rintro ⟨rc, old, home, _⟩
      obtain ⟨set, mem⟩ := (inv.links.home f rc old).1
      rw [home, new] at mem
      cases mem
    · exact inv.links.inSet k mem got f
  · obtain ⟨⟨set, mem⟩, g⟩ := inv.links.home f rc old
    exact ⟨⟨set, kept _ set mem⟩, g⟩
  · rcases inv.links.unlinked f rc old loose with ⟨set, mem, gone⟩ | unowned
    · exact .inl ⟨set, kept _ set mem, gone⟩
    · exact .inr unowned
  · rw [System.putSet] at got
    dsimp only at got
    obtain ⟨rfl, ⟨⟩⟩ | ⟨eq, got⟩ := of_update_eq got
    · exact fun _ => ⟨Int.le_refl 0, (by decide : (0 : Int) ≤ kernelSEMVMX)⟩
    · exact inv.accounts.values k mem got

theorem holds_iff (stays : ∀ g, (tasks task).phase ≠ .leaving g) (other : Nat) :
    Holds tasks task other ↔ (tasks task).undo = some other := by
  simp [Holds, stays other]

theorem holds_update {next : Task} (other : Nat) :
    Holds (update tasks task next) task other ↔ next.undo = some other ∨ next.phase = .leaving other := by
  simp [Holds]

theorem holds_other {next : Task} (ne : k ≠ task) (mem : Nat) : Holds (update tasks task next) k mem ↔ Holds tasks k mem := by
  simp [Holds, update_of_ne ne]

section
variable (inv : s.Consistent)
include inv

namespace System.Consistent

theorem openGroup (new : s.groups id = none) (alone : (s.tasks task).undo = none) (cur : (s.tasks task).phase = ph) (plain : ph.Plain)
    (ok : PhaseOk (update s.tasks task ⟨some id, ph⟩) (update s.groups id (some ⟨1, []⟩)) s.entries s.sets task) : ({ s with
      groups := update s.groups id (some ⟨1, []⟩)
      tasks := update s.tasks task ⟨some id, ph⟩ } : System).Consistent := by
  have stays : ∀ g, ph ≠ .leaving g := by
    rintro g rfl
    exact plain
  refine inv.change (fun mem parked => ?_) (fun mem removing => ?_) (by rw [new]; rfl) (fun k ne => ?_)
    ⟨[task], by simp, rfl, fun k => ?_⟩ (by simp [new]) ok
  · rw [cur] at parked
    rw [parked] at plain
    exact plain
  · rw [cur] at removing
    rw [removing] at plain
    exact plain
  · rw [holds_update, holds_iff (by rwa [cur]), alone]
    simp [stays k, Ne.symm ne]
  by_cases eq : k = task
  · subst eq
    simp [holds_update]
  rw [holds_other eq]
  simp only [mem_singleton, eq, false_iff]
  intro holds
  obtain ⟨g, mem⟩ := inv.owners.known k id holds
  rw [new] at mem
  cases mem

theorem share (there : s.groups id = some g) (owned : g.owners ≠ 0) (unborn : (s.tasks task).phase = .unborn) : ({ s with
      groups := update s.groups id (some { g with owners := g.owners + 1 })
      tasks := update s.tasks task ⟨some id, .idle⟩ } : System).Consistent := by
  have alone : (s.tasks task).undo = none := by
    have ok := inv.owners.phases task
    rw [PhaseOk, unborn] at ok
    exact ok
  obtain ⟨hs, nodup, len, ms⟩ := inv.owners.counted id g there
  have without : ∀ other, ¬ Holds s.tasks task other := by
    intro other
    rw [holds_iff (by simp [unborn]), alone]
    simp
  refine inv.change (by simp [unborn]) (by simp [unborn]) (by rw [there]; rfl) (fun other ne => ?_)
    ⟨task :: hs, nodup_cons.mpr ⟨fun mem => without id ((ms task).mp mem), nodup⟩, by
      rw [length_cons, len], fun other => ?_⟩ (fun pre got zero => ?_) ?_
  · rw [holds_update]
    simp [without other, Ne.symm ne]
  · by_cases eq : other = task
    · subst eq
      simp [holds_update]
    · rw [holds_other eq, mem_cons, ms other]
      simp [eq]
  · rw [there] at got
    cases got
    exact absurd zero owned
  · simp [PhaseOk]

theorem leave (leaving : (s.tasks task).phase = .leaving id) (there : s.groups id = some g) (owned : g.owners ≠ 0) : ({ s with
      groups := update s.groups id (some { g with owners := g.owners - 1 })
      tasks := update s.tasks task
        { s.tasks task with phase := if g.owners = 1 then .draining id else .dead } } : System).Consistent := by
  have alone : (s.tasks task).undo = none := by
    have ok := inv.owners.phases task
    rw [PhaseOk, leaving] at ok
    exact ok
  obtain ⟨hs, nodup, len, ms⟩ := inv.owners.counted id g there
  have member : task ∈ hs := (ms task).mpr (.inr leaving)
  refine inv.change (by simp [leaving]) (by simp [leaving]) (by rw [there]; rfl) (fun other differs => ?_)
    ⟨hs.erase task, nodup.erase task, by rw [length_erase_of_mem member, len], fun other => ?_⟩
    (fun pre got zero => ?_) ?_
  · rw [holds_update]
    unfold Holds
    rw [alone, leaving]
    have ne : Phase.leaving id ≠ .leaving other := fun eq => differs (by cases eq; rfl)
    simp only [reduceCtorEq, ne, or_false, iff_false]
    split <;> simp
  · by_cases eq : other = task
    · subst eq
      rw [holds_update, alone]
      simp only [reduceCtorEq, false_or]
      refine ⟨fun mem => absurd mem nodup.not_mem_erase, fun wrong => ?_⟩
      split at wrong <;> cases wrong
    · rw [holds_other eq, nodup.mem_erase_iff, ms other]
      simp [eq]
  · rw [there] at got
    cases got
    exact absurd zero owned
  · by_cases last : g.owners = 1
    · simp [PhaseOk, last, alone]
    · simp [PhaseOk, last, alone]

theorem exit (idle : (s.tasks task).phase = .idle) (owner : (s.tasks task).undo = some id) :
    ({ s with tasks := update s.tasks task ⟨none, .leaving id⟩ } : System).Consistent := by
  have held : ∀ k there, Holds (update s.tasks task ⟨none, .leaving id⟩) k there ↔ Holds s.tasks k there := by
    intro k there
    by_cases eq : k = task
    · subst eq
      rw [holds_update, holds_iff (by simp [idle]), owner]
      simp
    · exact holds_other eq there
  refine ⟨inv.links, ⟨fun there g got => ?_, fun k there holds => ?_, fun k => ?_⟩, ?_, inv.accounts⟩
  · obtain ⟨hs, nodup, len, ms⟩ := inv.owners.counted there g got
    exact ⟨hs, nodup, len, fun k => (ms k).trans (held k there).symm⟩
  · exact inv.owners.known k there ((held k there).mp holds)
  · by_cases eq : k = task
    · subst eq
      simp [PhaseOk]
    · exact (inv.owners.phases k).mono (update_of_ne eq _ _)
        (fun e rc old => ⟨rc, old, rfl, rfl⟩) (fun there set got => ⟨set, got, fun gone => gone⟩)
        fun there g got => ⟨g, got, fun zero => zero⟩
  refine inv.queues.retask (fun there set got req mem => ?_) fun k there set removing got => ?_
  · exact update_of_ne (inv.unqueued (by simp [idle]) there set got req mem) _ _
  have ne : k ≠ task := by
    rintro rfl
    rw [idle] at removing
    cases removing
  left
  dsimp only
  rw [update_of_ne ne, removing]

theorem link (owner : (s.tasks task).undo = some groupId)
    (there : s.groups groupId = some g) (got : s.sets id = some set)
    (live : set.removed = false) (new : s.entries e = none) (out : s.undoFind g id = none) : ({ s with
      entries := update s.entries e (some ⟨groupId, id, true⟩)
      adjustments := update s.adjustments e fun _ => 0
      groups := update s.groups groupId (some { g with entries := e :: g.entries })
      sets := update s.sets id (some { set with undo := e :: set.undo }) } : System).Consistent := by
  have owned := inv.owners.owned (.inl owner) there
  obtain ⟨links, alone⟩ := inv.links.link got live there owned new (inv.undoFind_none there out)
  have ne : ∀ f rc, s.entries f = some rc → f ≠ e := by
    rintro f rc known rfl
    rw [new] at known
    cases known
  have kept : ∀ f rc, s.entries f = some rc → ∃ record', update s.entries e (some (⟨groupId, id, true⟩ : UndoEntry)) f = some record' ∧
        record'.group = rc.group ∧ record'.set = rc.set :=
    fun f rc known => ⟨rc, by rw [update_of_ne (ne f rc known), known], rfl, rfl⟩
  refine ⟨links, inv.owners.frame kept (fun k old pre => ?_) (fun k => ?_),
    inv.queues.setSet kept (fun f rc known _ => update_of_ne (ne f rc known) _ _)
      (inv.queues.parked id set got) (fun req mem => ?_) (inv.queues.drained id set got), ?_⟩
  · dsimp only
    exact removed_kept got (fun gone => gone) pre
  · dsimp only
    by_cases eq : k = groupId
    · subst eq
      rw [update_self, there]
      rfl
    · rw [update_of_ne eq]
  · rw [(inv.queues.parked id set got req mem).1.adjustment_fresh new]
    exact inv.queues.stuck id set got req mem
  · exact (inv.accounts.link new alone).setSet got (inv.accounts.values id set got) fun gone => gone

theorem parks (cur : (s.tasks task).phase = .trying id req) (got : s.sets id = some set) (live : set.removed = false)
    (results : Nat → Int) (stuck : ({ req with blocking } : Request).Stuck set.value (req.adjustment s.adjustments)) :
    System.Consistent { (s.setPhase task (.parked id)).putSet id
      { set with queue := set.queue ++ [{ req with blocking }] } with adjustments := s.adjustments, results } := by
  have ok := inv.owners.phases task
  rw [PhaseOk, cur] at ok
  obtain ⟨mine, owns⟩ := ok
  have ts : (s.setPhase task (.parked id)).tasks task = ⟨(s.tasks task).undo, .parked id⟩ := by
    rw [System.setPhase]
    dsimp only
    rw [update_self]
  have parked : (s.setPhase task (.parked id)).Consistent := inv.advance (by rw [cur]; trivial) (by simp) (by rw [PhaseOk, ts]; trivial)
  have ownsParked : Owns s.entries (s.setPhase task (.parked id)).tasks id req := by
    refine owns.mono (fun f rc known => ⟨rc, known, rfl, rfl⟩) ?_
    rw [mine, ts]
  refine ⟨parked.links.setSet got rfl fun gone => gone,
    parked.owners.frame (fun f rc known => ⟨rc, known, rfl, rfl⟩) (fun k old pre => ?_) fun _ => rfl,
    parked.queues.setSet (fun f rc known => ⟨rc, known, rfl, rfl⟩) (fun _ _ _ _ => rfl) (fun k mem => ?_) (fun k mem => ?_) ?_,
    parked.accounts.setSet got (inv.accounts.values id set got) fun gone => gone⟩
  · exact removed_kept got (fun gone => gone) pre
  · rcases mem_append.mp mem with earlier | new
    · exact parked.queues.parked id set got k earlier
    · rw [mem_singleton.mp new]
      refine ⟨⟨ownsParked.honest, ownsParked.entry, ownsParked.covered⟩, ?_⟩
      rw [mine, ts]
  · rcases mem_append.mp mem with earlier | new
    · exact parked.queues.stuck id set got k earlier
    · rw [mem_singleton.mp new]
      exact stuck
  · rw [live]
    simp

theorem attempt (cur : (s.tasks task).phase = .trying id req) (got : s.sets id = some set)
    (ran : s.attempt task id req set permitted expired now = some s') : s'.Consistent := by
  have plain : (s.tasks task).phase.Plain := by
    rw [cur]
    trivial
  have idle : (s.setPhase task .idle).Consistent := inv.advance plain (by simp) phaseOk_idle
  have ok := inv.owners.phases task
  rw [PhaseOk, cur] at ok
  obtain ⟨mine, owns⟩ := ok
  unfold System.attempt at ran
  split at ran
  · cases ran
    exact { idle with }
  rename_i has
  have live : set.removed = false := by simpa using has
  split at ran
  · cases ran
    exact idle
  dsimp only at ran
  split at ran
  next granted =>
    have runs := requestTry_granted granted
    generalize eq : requestTry now req set (req.adjustment s.adjustments) = tried at *
    have ownsIdle : Owns s.entries (s.setPhase task .idle).tasks id req := by
      refine owns.mono (fun f rc known => ⟨rc, known, rfl, rfl⟩) ?_
      rw [mine, System.setPhase]
      dsimp only
      rw [update_self]
    have link := fun f refers => idle.links.linked_of_owns idle.owners ownsIdle got live (e := f) refers
    obtain ⟨v, removed, undo, q, adj⟩ : tried.set.value = (applied req.ops ⟨set.value, req.adjustment s.adjustments⟩).value ∧
        tried.set.removed = set.removed ∧ tried.set.undo = set.undo ∧ tried.set.queue = set.queue ∧
        tried.adjustment = (applied req.ops ⟨set.value, req.adjustment s.adjustments⟩).adjustment := by
      rw [← eq, requestTry_runs runs]
      exact ⟨rfl, rfl, rfl, rfl, rfl⟩
    have accs := inv.accounts.granted got inv.links ownsIdle link runs v removed
    rw [← adj] at accs
    have booked : (s.setPhase task .idle).events id [(req, 0)] ++ s.trace =
        .completed ((s.setPhase task .idle).tasks req.task).undo id req.ops :: s.trace := by
      simp [System.events]
    split at ran
    · obtain ⟨_, updated, rfl⟩ := map_eq_some_iff.mp ran
      have part : Section (s.setPhase task .idle) id set tried.set (req.store s.adjustments tried.adjustment) [(req, 0)] s.trace := by
        refine ⟨got, live, undo, removed.trans live, q, fun f rc known away => ?_, ?_⟩
        · unfold Request.store
          cases refers : req.undo with
          | none => rfl
          | some own =>
            dsimp only
            rw [update_of_ne]
            · rfl
            rintro rfl
            obtain ⟨k, there, home, _⟩ := owns.entry f refers
            have eq : s.entries f = some rc := known
            rw [eq] at there
            cases there
            exact away home
        · exact accs
      have final := part.setUpdate idle updated
      exact { final with }
    next quiet =>
      have still : req.alter = false := by simpa using quiet
      have zero := @applied_zero req.ops ⟨set.value, req.adjustment s.adjustments⟩ (owns.honest still)
      rw [zero] at v adj
      rw [adj, Request.store_same] at accs
      have shelved := idle.putSet got undo (fun gone => removed.trans gone) v (by rw [q]; exact fun _ mem => mem) (by simp [removed, live])
      cases ran
      rw [adj, Request.store_same]
      exact ⟨shelved.links, shelved.owners, shelved.queues, accs⟩
  next refused =>
    rw [requestTry_refused refused] at ran
    rw [Request.store_same] at ran
    split at ran
    next waits =>
      cases ran
      exact inv.parks cur got live _ (requestTry_stuck waits.1)
    cases ran
    have eq : (s.setPhase task .idle).putSet id set = s.setPhase task .idle := by
      rw [System.putSet]
      have unchanged : Function.update (s.setPhase task .idle).sets id (some set) = (s.setPhase task .idle).sets := by
        have here : (s.setPhase task .idle).sets id = some set := got
        rw [← here]
        exact update_eq_self _ _
      rw [unchanged]
    rw [eq]
    exact { idle with }

end System.Consistent
end

theorem undone_ranged (values : ∀ i, 0 ≤ set.value i ∧ set.value i ≤ kernelSEMVMX) (i : Nat) :
    0 ≤ (System.undone set adj pid now).value i ∧ (System.undone set adj pid now).value i ≤ kernelSEMVMX := by
  have bound : (0 : Int) ≤ kernelSEMVMX := by decide
  have pre := values i
  dsimp only [System.undone]
  split
  · split
    · exact ⟨Int.le_refl _, bound⟩
    · split
      · exact ⟨bound, Int.le_refl _⟩
      · omega
  · exact pre

section
variable (inv : s.Consistent)
include inv

namespace System.Consistent

theorem detach (cur : (s.tasks task).phase = .detaching gid e) (old : s.entries e = some rc)
    (ran : s.detach task gid e rc pid now = some s') : s'.Consistent := by
  have ok := inv.owners.phases task
  rw [PhaseOk, cur] at ok
  obtain ⟨undo, ⟨_, mem, zero⟩, _, knownMine, belongs⟩ := ok
  rw [old] at knownMine
  cases knownMine
  subst belongs
  have draining : (s.setPhase task (.draining rc.group)).Consistent :=
    inv.advance (by rw [cur]; trivial) (by simp) (by simp [PhaseOk, System.setPhase, undo, mem, zero])
  dsimp only [System.detach] at ran
  split at ran
  · cases ran
    exact draining
  rename_i hangs
  have link : rc.linked = true := by simpa using hangs
  obtain ⟨⟨set, got⟩, _⟩ := inv.links.home e rc old
  obtain ⟨applied, here⟩ := draining.unlink old link got mem (.inr ⟨rfl, zero⟩)
  rw [here] at ran
  dsimp only at ran
  split at ran
  next gone =>
    cases ran
    exact (draining.unlink old link got mem (.inl ⟨rfl, gone⟩)).1
  rename_i has
  have live : set.removed = false := by simpa using has
  obtain ⟨_, updated, rfl⟩ := map_eq_some_iff.mp ran
  have values := applied.accounts.values rc.set _ here
  have part : Section { (s.setPhase task (.draining rc.group)).undoUnlink e rc with
      trace := .applied rc.group rc.set :: s.trace } rc.set { set with undo := set.undo.filter (· ≠ e) }
      (System.undone { set with undo := set.undo.filter (· ≠ e) } (s.adjustments e) pid now) s.adjustments []
      (.applied rc.group rc.set :: s.trace) :=
    ⟨here, live, rfl, live, rfl, fun _ _ _ _ => rfl, applied.accounts.setSet here (undone_ranged values) fun gone => gone⟩
  have final := part.setUpdate applied updated
  exact { final with }

/-- `SETVAL` and `SETALL`: clear the adjustments, store the values and let `set_update` run. -/
theorem store (got : s.sets id = some set) (live : set.removed = false) {moved : SemSet} {num : Option Nat} {update : Update}
    (updated : setUpdate now moved (System.clearAdjustments set s.adjustments num) [] = some update)
    (undo : moved.undo = set.undo) (removed : moved.removed = set.removed) (q : moved.queue = set.queue)
    (values : ∀ i, 0 ≤ moved.value i ∧ moved.value i ≤ kernelSEMVMX) {event : Event} (is : event = Event.stored id num) :
    ({ s.commit id update with trace := s.events id update.wake ++ event :: s.trace } : System).Consistent := by
  have cleared := inv.accounts.clear inv.links got num is
  have part : Section s id set moved (System.clearAdjustments set s.adjustments num) [] (event :: s.trace) := by
    refine ⟨got, live, undo, removed.trans live, q, fun f rc old away => ?_, cleared.setSet got values fun gone => removed.trans gone⟩
    funext i
    rw [System.clearAdjustments, if_neg]
    rintro ⟨mem, _⟩
    obtain ⟨k, there, home, _⟩ := (inv.links.inSet id set got f).mp mem
    rw [old] at there
    cases there
    exact away home
  have final := part.setUpdate inv updated
  exact { final with }

theorem remove (got : s.sets id = some set) (idle : (s.tasks task).phase = .idle) :
    ((s.putSet id { set with removed := true }).setPhase task (.removing id)).Consistent := by
  have moved : ((s.putSet id { set with removed := true }).setPhase task (.removing id)).tasks task =
      ⟨(s.tasks task).undo, .removing id⟩ := by
    simp [System.setPhase, System.putSet]
  have framed : Owners s.tasks s.groups s.entries (update s.sets id (some { set with removed := true })) := by
    refine inv.owners.frame (fun f rc known => ⟨rc, known, rfl, rfl⟩) (fun k old pre => ?_) fun _ => rfl
    exact removed_kept got (fun _ => rfl) pre
  have qs : Queues s.sets s.entries s.adjustments ((s.putSet id { set with removed := true }).setPhase task (.removing id)).tasks := by
    refine inv.queues.retask (fun there k here req mem => ?_) fun k there _ removing _ => ?_
    · exact update_of_ne (inv.unqueued (by simp [idle]) there k here req mem) _ _
    have ne : k ≠ task := by
      rintro rfl
      rw [idle] at removing
      cases removing
    left
    rw [System.setPhase]
    dsimp only
    rw [update_of_ne ne]
    exact removing
  refine ⟨inv.links.setSet got rfl fun _ => rfl, framed.move (by simp [idle]) (by simp) ?_,
    qs.setSet (fun f rc known => ⟨rc, known, rfl, rfl⟩) (fun _ _ _ _ => rfl) (qs.parked id set got)
      (inv.queues.stuck id set got) fun _ => .inr ⟨task, by rw [moved]⟩,
    inv.accounts.setSet got (inv.accounts.values id set got) fun _ => rfl⟩
  simp [PhaseOk]

theorem undoUnlink_loose (old : s.entries e = some rc) (loose : rc.linked = false) : s.undoUnlink e rc = s := by
  obtain ⟨⟨set, got⟩, g, there⟩ := inv.links.home e rc old
  have out : ∀ f r, s.entries f = some r → r.linked = true → f ≠ e := by
    rintro f r here link rfl
    rw [old] at here
    cases here
    rw [loose] at link
    cases link
  have undo : set.undo.filter (· ≠ e) = set.undo := by
    refine filter_eq_self.mpr fun f mem => ?_
    obtain ⟨r, here, _, link⟩ := (inv.links.inSet _ set got f).mp mem
    exact decide_eq_true (out f r here link)
  have es : g.entries.filter (· ≠ e) = g.entries := by
    refine filter_eq_self.mpr fun f mem => ?_
    obtain ⟨r, here, _, link⟩ := (inv.links.inGroup _ g there f).mp mem
    exact decide_eq_true (out f r here link)
  have sameEntries : update s.entries e (some { rc with linked := false }) = s.entries := by
    rw [← loose, ← old, update_eq_self]
  have sameSets : update s.sets rc.set ((s.sets rc.set).map fun set =>
      { set with undo := set.undo.filter (· ≠ e) }) = s.sets := by
    rw [got, map_some, undo, ← got, update_eq_self]
  have sameGroups : update s.groups rc.group ((s.groups rc.group).map fun g =>
      { g with entries := g.entries.filter (· ≠ e) }) = s.groups := by
    rw [there, map_some, es, ← there, update_eq_self]
  rw [System.undoUnlink, sameEntries, sameSets, sameGroups]

theorem unlinkAll {list : List Nat} (got : s.sets id = some set) (gone : set.removed = true)
    (homes : ∀ e ∈ list, ∀ rc, s.entries e = some rc → rc.set = id) : (list.foldl System.unlinkEntry s).Consistent := by
  induction list generalizing s set with
  | nil => exact inv
  | cons e rest ih =>
    rw [foldl_cons, System.unlinkEntry]
    cases known : s.entries e with
    | none => exact ih inv got gone fun f mem => homes f (.tail _ mem)
    | some rc =>
      have home := homes e (.head _) rc known
      subst home
      dsimp only
      cases linked : rc.linked with
      | false =>
        rw [inv.undoUnlink_loose known linked]
        exact ih inv got gone fun f mem => homes f (.tail _ mem)
      | true =>
        obtain ⟨g, there⟩ := (inv.links.home e rc known).2
        obtain ⟨s', here⟩ := inv.unlink known linked got there (.inl ⟨rfl, gone⟩)
        refine ih s' here gone fun f mem r old => ?_
        rw [System.undoUnlink] at old
        dsimp only at old
        obtain ⟨rfl, ⟨⟩⟩ | ⟨eq, old⟩ := of_update_eq old
        · rfl
        · exact homes f (.tail _ mem) r old

/-- The second section of `set_remove`: the queue is emptied and every entry unlinked. -/
theorem drain (got : s.sets id = some set) (cur : (s.tasks task).phase = .removing id) (results : Nat → Int) :
    (set.undo.foldl System.unlinkEntry
      { (s.putSet id { set with queue := [] }).setPhase task .idle with results := results }).Consistent := by
  have ok := inv.owners.phases task
  rw [PhaseOk, cur] at ok
  obtain ⟨eq, there, gone⟩ := ok
  rw [got] at there
  cases there
  have bare : (s.putSet id { set with queue := [] }).Consistent := inv.putSet got rfl (fun gone => gone) rfl (by simp) fun _ => .inl rfl
  have away : ∀ other, ((s.putSet id { set with queue := [] }).tasks task).phase ≠ .parked other := by
    intro other parked
    have here : (s.tasks task).phase = .parked other := parked
    rw [cur] at here
    cases here
  have moved : ((s.putSet id { set with queue := [] }).setPhase task .idle).Consistent := by
    refine bare.move (bare.unqueued away) (fun g leaving => ?_) (by simp) (fun other old removing here => ?_) phaseOk_idle
    · have wrong : (s.tasks task).phase = .leaving g := leaving
      rw [cur] at wrong
      cases wrong
    have still : (s.tasks task).phase = .removing other := removing
    rw [cur] at still
    cases still
    rw [System.putSet] at here
    dsimp only at here
    rw [update_self] at here
    cases here
    rfl
  have start : ({ (s.putSet id { set with queue := [] }).setPhase task .idle with results := results } :
      System).Consistent := { moved with }
  have here : (s.putSet id { set with queue := [] }).sets id = some { set with queue := [] } := update_self _ _ _
  refine start.unlinkAll here gone fun f mem r known => ?_
  obtain ⟨_, old, home, _⟩ := (inv.links.inSet id set got f).mp mem
  have eq : s.entries f = some r := known
  rw [old] at eq
  cases eq
  exact home

theorem tries (plain : (s.tasks task).phase.Plain) (mine : req.task = task) (honest : req.Honest)
    (old : s.entries e = some rc) (home : rc.set = id) (owner : (s.tasks task).undo = some rc.group) :
    (s.setPhase task (.trying id { req with undo := some e })).Consistent := by
  refine inv.advance plain (by simp) ?_
  simp only [PhaseOk, System.setPhase, update_self]
  refine ⟨mine, honest, fun f refers => ?_, by simp⟩
  cases refers
  exact ⟨rc, old, home, by rwa [mine, update_self]⟩

theorem cloneStep (ran : s.step (.clone parent child shared) = some s') : s'.Consistent := by
  dsimp only [System.step] at ran
  split at ran
  · cases ran
  rename_i phases
  rw [not_or, not_not, not_not] at phases
  split at ran
  · cases ran
    have alone : (s.tasks child).undo = none := by
      have ok := inv.owners.phases child
      rw [PhaseOk, phases.2] at ok
      exact ok
    have born : ({ s with tasks := update s.tasks child ⟨(s.tasks child).undo, .idle⟩ } : System).Consistent :=
      inv.advance (by rw [phases.2]; trivial) (by simp) phaseOk_idle
    rw [alone] at born
    exact born
  split at ran
  · cases ran
  split at ran
  · cases ran
  rename_i mem
  split at ran
  · cases ran
  rename_i owned
  cases ran
  exact inv.share mem owned phases.2

theorem startStep (ran : s.step (.start task id ops pid) = some s') : s'.Consistent := by
  dsimp only [System.step] at ran
  split at ran
  · cases ran
  split at ran
  next ready =>
    cases ran
    have honest : Request.Honest ⟨task, pid, ops, ops.any (·.amount ≠ 0), none, 0⟩ := by
      intro still op mem
      have zero := any_eq_false.mp still op mem
      simpa using zero
    refine inv.advance (by rw [ready.1]; trivial) (fun g => by split <;> simp) ?_
    by_cases undoes : ops.any Sembuf.undoes = true
    · rw [if_pos undoes]
      simpa [PhaseOk, System.setPhase] using honest
    rw [if_neg undoes]
    simp only [PhaseOk, System.setPhase, update_self]
    refine ⟨trivial, honest, by simp, fun _ op mem => ?_⟩
    simpa using any_eq_false.mp ((Bool.not_eq_true _).mp undoes) op mem
  · cases ran

theorem findStep (ran : s.step (.find task allocated) = some s') : s'.Consistent := by
  dsimp only [System.step] at ran
  split at ran
  case h_1 id req gid cur owner =>
    have ok := inv.owners.phases task
    rw [PhaseOk, cur] at ok
    split at ran
    · cases ran
    rename_i mem
    split at ran
    next got =>
      cases ran
      obtain ⟨_, old, home, belongs⟩ := inv.undoFind_some mem got
      exact inv.tries (by rw [cur]; trivial) ok.1 ok.2 old home (by rwa [belongs])
    cases ran
    refine inv.advance (by rw [cur]; trivial) (fun g => by split <;> simp) ?_
    cases allocated with
    | true => simpa [PhaseOk, System.setPhase] using ok
    | false => exact phaseOk_idle
  case h_2 => cases ran

theorem insertStep (ran : s.step (.insert task entry) = some s') : s'.Consistent := by
  dsimp only [System.step] at ran
  split at ran
  case h_1 id req gid cur owner =>
    have ok := inv.owners.phases task
    rw [PhaseOk, cur] at ok
    split at ran
    case h_1 g set mem got new =>
      split at ran
      · cases ran
        exact inv.advance (by rw [cur]; trivial) (by simp) phaseOk_idle
      rename_i has
      split at ran
      next hit =>
        cases ran
        obtain ⟨_, old, home, belongs⟩ := inv.undoFind_some mem hit
        exact inv.tries (by rw [cur]; trivial) ok.1 ok.2 old home (by rwa [belongs])
      rename_i miss
      cases ran
      have link := inv.link owner mem got (by simpa using has) new miss
      exact link.tries (by rw [cur]; trivial) ok.1 ok.2 (update_self _ _ _) rfl owner
    case h_2 => cases ran
  case h_2 => cases ran

theorem abortStep (ran : s.step (.abort task) = some s') : s'.Consistent := by
  dsimp only [System.step] at ran
  split at ran
  case h_1 id cur =>
    split at ran
    · cases ran
    rename_i got
    cases ran
    obtain ⟨dequeued, unqueued⟩ := @System.Consistent.dequeue s id task _ inv got
    exact dequeued.move (unqueued cur) (by rw [System.dequeue, System.putSet]; simp [cur])
      nofun (by rw [System.dequeue, System.putSet]; simp [cur]) phaseOk_idle
  case h_5 => cases ran
  all_goals
    rename_i cur
    cases ran
    exact inv.advance (by rw [cur]; trivial) nofun phaseOk_idle

theorem setValStep {num : Nat} {v : Int} {pid : Nat} (ran : s.step (.setVal id num v pid now) = some s') : s'.Consistent := by
  dsimp only [System.step] at ran
  split at ran
  · cases ran
  rename_i got
  split at ran
  · cases ran
  rename_i ok
  simp only [not_or, Bool.not_eq_true] at ok
  obtain ⟨_, updated, rfl⟩ := map_eq_some_iff.mp ran
  refine inv.store got ok.1 updated rfl rfl rfl (fun i => ?_) rfl
  have pre := inv.accounts.values id _ got i
  by_cases eq : i = num
  · subst eq
    simp only [update_self]
    omega
  · simp only [update_of_ne eq]
    exact pre

theorem setAllStep {values : Nat → UInt16} {pid : Nat} (ran : s.step (.setAll id values pid now) = some s') : s'.Consistent := by
  dsimp only [System.step] at ran
  split at ran
  · cases ran
  rename_i got
  split at ran
  · cases ran
  rename_i ok
  simp only [not_or, Bool.not_eq_true, not_exists, not_and] at ok
  obtain ⟨_, updated, rfl⟩ := map_eq_some_iff.mp ran
  refine inv.store got ok.1 updated rfl rfl rfl (fun i => ?_) rfl
  have pre := inv.accounts.values id _ got i
  dsimp only
  split
  next mem =>
    have bound := ok.2 i mem
    omega
  · exact pre

theorem pickStep (ran : s.step (.pick task) = some s') : s'.Consistent := by
  dsimp only [System.step] at ran
  split at ran
  case h_1 id cur =>
    have ok := inv.owners.phases task
    rw [PhaseOk, cur] at ok
    split at ran
    · cases ran
    rename_i g mem
    split at ran
    · cases ran
      exact inv.advance (by rw [cur]; trivial) (by simp) (by simp [PhaseOk, System.setPhase, ok.1])
    rename_i entry rest listed
    cases ran
    obtain ⟨rc, old, belongs, _⟩ := (inv.links.inGroup id g mem entry).mp (by
      rw [listed]
      exact (.head _))
    refine inv.advance (by rw [cur]; trivial) (by simp) ?_
    simp only [PhaseOk, System.setPhase, update_self]
    exact ⟨ok.1, ok.2, rc, old, belongs⟩
  case h_2 => cases ran

theorem step {step : Step} (ran : s.step step = some s') : s'.Consistent := by
  unfold System.step at ran
  split at ran
  case h_1 id nsems =>
    split at ran
    · cases ran
    next new =>
      cases ran
      exact inv.create new nsems
  case h_2 => exact inv.cloneStep ran
  case h_3 task id =>
    split at ran
    next new alone cur =>
      cases ran
      exact inv.openGroup new alone cur trivial (by simp [PhaseOk])
    next new alone cur =>
      cases ran
      have ok := inv.owners.phases task
      rw [PhaseOk, cur] at ok
      exact inv.openGroup new alone cur trivial (by simpa [PhaseOk] using ok)
    · cases ran
  case h_4 => exact inv.startStep ran
  case h_5 => exact inv.findStep ran
  case h_6 => exact inv.insertStep ran
  case h_7 task permitted expired now =>
    split at ran
    case h_1 id req cur =>
      split at ran
      · cases ran
      next got =>
        exact inv.attempt cur got ran
    case h_2 => cases ran
  case h_8 task timeout =>
    split at ran
    case h_1 id cur =>
      split at ran
      · cases ran
      rename_i set got
      cases ran
      obtain ⟨dequeued, unqueued⟩ := @System.Consistent.dequeue s id task _ inv got
      have moved : ((s.dequeue task id set).setPhase task .idle).Consistent :=
        dequeued.move (unqueued cur) (by rw [System.dequeue, System.putSet]; simp [cur])
        (by rintro _ ⟨⟩) (by rw [System.dequeue, System.putSet]; simp [cur]) phaseOk_idle
      exact { moved with }
    case h_2 => cases ran
  case h_9 => exact inv.abortStep ran
  case h_10 => exact inv.setValStep ran
  case h_11 => exact inv.setAllStep ran
  case h_12 task id =>
    split at ran
    · cases ran
    rename_i got
    split at ran
    · cases ran
    rename_i allowed
    rw [not_or, not_not] at allowed
    cases ran
    exact inv.remove got allowed.2
  case h_13 task =>
    split at ran
    case h_1 id cur =>
      split at ran
      · cases ran
      rename_i got
      cases ran
      exact inv.drain got cur _
    case h_2 => cases ran
  case h_14 task =>
    split at ran
    case h_1 g idle owner =>
      cases ran
      exact inv.exit idle owner
    case h_2 idle alone =>
      cases ran
      exact inv.advance (by rw [idle]; trivial) (by simp) (by simp [PhaseOk, System.setPhase, alone])
    case h_3 => cases ran
  case h_15 task =>
    split at ran
    case h_1 id cur =>
      split at ran
      · cases ran
      rename_i mem
      split at ran
      · cases ran
      rename_i owned
      cases ran
      exact inv.leave cur mem owned
    case h_2 => cases ran
  case h_16 => exact inv.pickStep ran
  case h_17 task pid now =>
    split at ran
    case h_1 g entry cur =>
      split at ran
      · cases ran
      rename_i old
      exact inv.detach cur old ran
    case h_2 => cases ran

end System.Consistent
end

theorem System.Reachable.consistent (run : s.Reachable) : s.Consistent := by
  induction run with
  | initial =>
    refine ⟨⟨nofun, nofun, nofun, nofun, nofun⟩, ⟨nofun, fun task id holds => ?_, fun task => ?_⟩, ⟨nofun, nofun, nofun⟩,
      ⟨nofun, fun _ _ => ⟨(by decide : -kernelSEMAEM - 1 ≤ 0), (by decide : 0 ≤ kernelSEMAEM)⟩, nofun,
        fun _ _ _ => ⟨fun _ => rfl, nofun⟩, nofun, nofun⟩⟩
    · rcases holds with owner | leaving
      · cases owner
      · simp only [System.initial] at leaving
        split at leaving <;> cases leaving
    · by_cases first : task = 0
      · simp [PhaseOk, System.initial, first]
      · simp [PhaseOk, System.initial, first]
  | step _ ran ih => exact ih.step ran

end BoarOS.Sem
