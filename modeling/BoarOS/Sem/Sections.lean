import BoarOS.Sem.Accounts

namespace BoarOS.Sem
open Data Function

/-! # Sections under a lock

The pieces that the sections are made of: a task moves on, `set_update` runs, an entry is
linked or unlinked.
-/

variable {sets : Sets} {es : Entries} {groups : Groups} {ts : Tasks} {adjs : Adjustments}
  {trace : List Event} {s : System} {id task e : Nat} {set moved : SemSet} {ph : Phase} {r : UndoEntry}

theorem System.Consistent.move (inv : s.Consistent) (unqueued : ∀ id set, s.sets id = some set → ∀ req ∈ set.queue, req.task ≠ task)
    (stays : ∀ g, (s.tasks task).phase ≠ .leaving g) (moves : ∀ g, ph ≠ .leaving g)
    (removing : ∀ id set, (s.tasks task).phase = .removing id → s.sets id = some set → set.queue = [])
    (ok : PhaseOk (s.setPhase task ph).tasks s.groups s.entries s.sets task) : (s.setPhase task ph).Consistent := by
  refine ⟨inv.links, inv.owners.move stays moves ok, ?_, inv.accounts⟩
  refine inv.queues.retask (fun id set got req mem => ?_) fun k id set ph got => ?_
  · exact update_of_ne (unqueued id set got req mem) _ _
  by_cases eq : k = task
  · subst eq
    exact .inr (removing id set ph got)
  left
  rw [System.setPhase]
  dsimp only
  rw [update_of_ne eq]
  exact ph

theorem System.Consistent.unqueued (inv : s.Consistent) (away : ∀ id, (s.tasks task).phase ≠ .parked id) :
    ∀ id set, s.sets id = some set → ∀ req ∈ set.queue, req.task ≠ task := by
  intro id set got req mem eq
  have parked := (inv.queues.parked id set got req mem).2
  rw [eq] at parked
  exact away id parked

structure Section (s : System) (id : Nat) (set changed : SemSet) (adjustments : Adjustments)
    (wake : List (Request × Int)) (trace : List Event) : Prop where
  found : s.sets id = some set
  live : set.removed = false
  undo : changed.undo = set.undo
  removed : changed.removed = false
  queue : changed.queue = set.queue
  elsewhere : ∀ e record, s.entries e = some record → record.set ≠ id → adjustments e = s.adjustments e
  accounts : Accounts (update s.sets id (some changed)) s.entries adjustments (s.events id wake ++ trace)

structure Updating (s : System) (id : Nat) (set : SemSet) (trace : List Event) (update : Update) : Prop where
  undo : update.set.undo = set.undo
  removed : update.set.removed = false
  elsewhere : ∀ e record, s.entries e = some record → record.set ≠ id → update.adjustments e = s.adjustments e
  accounts : Accounts (Function.update s.sets id (some update.set)) s.entries update.adjustments (s.events id update.wake ++ trace)

theorem Updating.granted (inv : s.Consistent) (got : s.sets id = some set) (live : set.removed = false)
    {update : Update} (updating : Updating s id set trace update) {req : Request} {now : Int}
    (owns : Owns s.entries s.tasks id req) (runs : Runs req.ops ⟨update.set.value, req.adjustment update.adjustments⟩) :
    Updating s id set trace (update.complete req (update.attempt now req)) := by
  have link := fun e refers => inv.links.linked_of_owns inv.owners owns got live (e := e) refers
  have links := inv.links.setSet got updating.undo (by simp [live])
  have v : (update.attempt now req).set.value = (applied req.ops ⟨update.set.value, req.adjustment update.adjustments⟩).value := by
    rw [Update.attempt, requestTry_runs runs]
  have gone : (update.attempt now req).set.removed = update.set.removed := by
    rw [Update.attempt, requestTry_runs runs]
  have booked := updating.accounts.granted (update_self _ _ _) links owns link runs v gone
  refine ⟨?_, ?_, fun e r old away => ?_, ?_⟩
  · rw [Update.attempt, requestTry_runs runs]
    exact updating.undo
  · rw [Update.attempt, requestTry_runs runs]
    exact updating.removed
  · have eq := updating.elsewhere e r old away
    rw [Update.complete]
    unfold Request.store
    cases refers : req.undo with
    | none => exact eq
    | some own =>
      dsimp only
      rw [update_of_ne, eq]
      rintro rfl
      obtain ⟨k, mem, home, _⟩ := owns.entry e refers
      rw [old] at mem
      cases mem
      exact away home
  · rw [Update.complete, Update.attempt, requestTry_runs runs] at *
    simpa [System.events] using booked

/-- A section that ends in `set_update` keeps every invariant. -/
theorem Section.setUpdate {adjs : Adjustments} {wake : List (Request × Int)} {now : Int} {update : Update}
    (part : Section s id set moved adjs wake trace) (inv : s.Consistent) (updated : setUpdate now moved adjs wake = some update) : ({ s with
      sets := Function.update s.sets id (some update.set), adjustments := update.adjustments
      trace := s.events id update.wake ++ trace } : System).Consistent := by
  have parked := inv.queues.parked id set part.found
  rw [← part.queue] at parked
  have honest : ∀ req ∈ moved.queue, req.Honest := fun req mem => (parked req mem).1.honest
  have stuck := updateLoop_stuck honest updated
  have kept : Kept now (fun req => Owns s.entries s.tasks id req ∧ (s.tasks req.task).phase = .parked id) (Updating s id set trace) :=
    ⟨fun req blocking good => ⟨⟨good.1.honest, good.1.entry, good.1.covered⟩, good.2⟩,
      fun update req good updating runs => updating.granted inv part.found part.live good.1 runs,
      fun update req error good nonzero updating => ⟨updating.undo, updating.removed, updating.elsewhere, by
        simpa [System.events, nonzero] using updating.accounts⟩⟩
  obtain ⟨wait, final, holds, res⟩ := updateLoop_keeps kept parked ⟨part.undo, part.removed, part.elsewhere, part.accounts⟩ updated
  have fields : update.set.undo = set.undo ∧ update.set.removed = false ∧ update.adjustments = final.adjustments ∧
      update.wake = final.wake ∧ update.set.value = final.set.value := by
    rw [res]
    exact ⟨holds.undo, holds.removed, rfl, rfl, rfl⟩
  obtain ⟨undo, removed, sameAdj, sameWake, sameValue⟩ := fields
  have links := inv.links.setSet part.found undo (by simp [part.live])
  have values : ∀ i, 0 ≤ update.set.value i ∧ update.set.value i ≤ kernelSEMVMX := by
    rw [sameValue]
    exact holds.accounts.values id final.set (update_self _ _ _)
  have accs := holds.accounts.setSet (update_self _ _ _) values (by simp [holds.removed])
  rw [update_idem, ← sameAdj, ← sameWake] at accs
  refine ⟨links, inv.owners.frame (fun e r old => ⟨r, old, rfl, rfl⟩) ?_ fun _ => rfl, ?_, accs⟩
  · intro k there got
    exact removed_kept part.found (by simp [part.live]) got
  refine inv.queues.setSet (fun e r old => ⟨r, old, rfl, rfl⟩) ?_ wait stuck ?_
  · rw [sameAdj]
    exact holds.elsewhere
  · rw [removed]
    nofun

theorem Owns.adjustment_fresh (owns : Owns es ts id req) (new : es e = none) (adj : Nat → Int) :
    req.adjustment (update adjs e adj) = req.adjustment adjs := by
  unfold Request.adjustment
  cases refers : req.undo with
  | none => rfl
  | some own =>
    dsimp only
    rw [update_of_ne]
    rintro rfl
    obtain ⟨r, old, _⟩ := owns.entry own refers
    rw [new] at old
    cases old

theorem listed_link (key : UndoEntry → Nat) (added : UndoEntry) (new : es e = none) (link : added.linked = true)
    (pre : ∀ f, f ∈ listed ↔ ∃ r, es f = some r ∧ key r = home ∧ r.linked = true) (f : Nat) :
    f ∈ (if key added = home then e :: listed else listed) ↔ ∃ r, update es e (some added) f = some r ∧ key r = home ∧ r.linked = true := by
  by_cases equal : f = e
  · split <;> simp [*]
  rw [update_of_ne equal, ← pre]
  split <;> simp [equal]

theorem Links.link (links : Links sets es groups) (got : sets id = some set) (live : set.removed = false) (mem : groups gid = some group)
    (owned : group.owners ≠ 0) (new : es e = none) (out : ∀ f r, es f = some r → r.linked = true → r.group = gid → r.set ≠ id) :
    Links (update sets id (some { set with undo := e :: set.undo })) (update es e (some ⟨gid, id, true⟩))
      (update groups gid (some { group with entries := e :: group.entries })) ∧
    ∀ f r, es f = some r → ¬ (r.group = gid ∧ r.set = id) := by
  have alone : ∀ f r, es f = some r → ¬ (r.group = gid ∧ r.set = id) := by
    rintro f r old ⟨belongs, home⟩
    cases linked : r.linked with
    | true => exact out f r old linked belongs home
    | false =>
      rcases links.unlinked f r old linked with ⟨ne, here, gone⟩ | ⟨ne, here, zero⟩
      · rw [home, got] at here
        cases here
        rw [live] at gone
        cases gone
      · rw [belongs, mem] at here
        cases here
        exact owned zero
  refine ⟨⟨fun home set' here f => ?_, fun home group' here f => ?_, fun f r old => ?_,
    fun f g r snd old knownSecond sameGroup sameSet => ?_, fun f r old loose => ?_⟩, alone⟩
  · obtain ⟨rfl, ⟨⟩⟩ | ⟨eq, here⟩ := of_update_eq here
    · have listed := listed_link UndoEntry.set ⟨gid, home, true⟩ new rfl (links.inSet home set got) f
      rwa [if_pos rfl] at listed
    · have listed := listed_link UndoEntry.set ⟨gid, id, true⟩ new rfl (links.inSet home set' here) f
      rwa [if_neg (Ne.symm eq)] at listed
  · obtain ⟨rfl, ⟨⟩⟩ | ⟨eq, here⟩ := of_update_eq here
    · have listed := listed_link UndoEntry.group ⟨home, id, true⟩ new rfl (links.inGroup home group mem) f
      rwa [if_pos rfl] at listed
    · have listed := listed_link UndoEntry.group ⟨gid, id, true⟩ new rfl (links.inGroup home group' here) f
      rwa [if_neg (Ne.symm eq)] at listed
  · have homes : (∃ set, sets r.set = some set) ∧ ∃ group, groups r.group = some group := by
      obtain ⟨rfl, ⟨⟩⟩ | ⟨_, old⟩ := of_update_eq old
      · exact ⟨⟨set, got⟩, group, mem⟩
      · exact links.home f r old
    obtain ⟨⟨set', here⟩, group', hereGroup⟩ := homes
    exact ⟨update_known here, update_known hereGroup⟩
  · obtain ⟨rfl, ⟨⟩⟩ | ⟨_, was⟩ := of_update_eq old <;> obtain ⟨rfl, ⟨⟩⟩ | ⟨_, last⟩ := of_update_eq knownSecond
    · rfl
    · exact absurd ⟨sameGroup.symm, sameSet.symm⟩ (alone g snd last)
    · exact absurd ⟨sameGroup, sameSet⟩ (alone f r was)
    · exact links.unique f g r snd was last sameGroup sameSet
  · obtain ⟨rfl, ⟨⟩⟩ | ⟨_, old⟩ := of_update_eq old
    · cases loose
    · rcases links.unlinked f r old loose with ⟨set', here, gone⟩ | ⟨group', here, zero⟩
      · exact .inl (update_has got (fun gone => gone) here gone)
      · exact .inr (update_has mem (fun zero => zero) here zero)

theorem Accounts.link (accs : Accounts sets es adjs trace) (new : es e = none)
    (alone : ∀ f r, es f = some r → ¬ (r.group = gid ∧ r.set = id)) :
    Accounts sets (update es e (some ⟨gid, id, true⟩)) (update adjs e fun _ => 0) trace := by
  obtain ⟨nothing, never⟩ := accs.untouched gid id alone
  refine ⟨accs.values, fun f i => ?_, fun f r known hangs i => ?_, fun g home out => ?_,
    fun f r known hangs => ?_, fun f r known loose => ?_⟩
  · by_cases equal : f = e
    · subst equal
      rw [update_self]
      decide
    · rw [update_of_ne equal]
      exact accs.adjusted f i
  · obtain ⟨rfl, ⟨⟩⟩ | ⟨ne, old⟩ := of_update_eq known
    · rw [update_self]
      rw [nothing i]
      rfl
    · rw [update_of_ne ne]
      exact accs.linked f r old hangs i
  · refine accs.untouched g home fun f r old both => ?_
    have ne : f ≠ e := by
      rintro rfl
      rw [new] at old
      cases old
    exact out f r (by rw [update_of_ne ne, old]) both
  · obtain ⟨rfl, ⟨⟩⟩ | ⟨_, old⟩ := of_update_eq known
    · exact never
    · exact accs.pending f r old hangs
  · obtain ⟨rfl, ⟨⟩⟩ | ⟨_, old⟩ := of_update_eq known
    · cases loose
    · exact accs.spent f r old loose

end BoarOS.Sem
