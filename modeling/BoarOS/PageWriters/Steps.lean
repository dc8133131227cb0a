import BoarOS.Data.UpdatedMap
import BoarOS.PageWriters.Walks

namespace BoarOS.PageWriters
open Data Function PageWriters.System

/-! # The steps keep the invariant -/

variable {s s' : System} {task : Nat} {ph : Phase}

theorem System.Ready.congr (old : s'.retired = s.retired) (writes : s'.writes = s.writes)
    (flag : s'.writeback = s.writeback) (loading : s'.loading = s.loading) : s'.Ready = s.Ready := by
  funext ph
  cases ph <;> simp only [Ready, old, writes, flag, loading]

theorem System.Woken.of_wake (quiet : ∀ task, s'.parked task = false) : s'.Woken := by
  intro task parked
  rw [quiet] at parked
  cases parked

theorem System.Woken.mono (woken : s.Woken) (parked : s'.parked = s.parked) (runs : s.parked task = false)
    (phases : s'.phase = update s.phase task ph) (ready : ∀ k, s.parked k = true → s'.Ready (s.phase k) → s.Ready (s.phase k) ∨ s'.Owed)
    (owed : s.Owed → s'.Owed) : s'.Woken := by
  intro k waits
  rw [parked] at waits
  have ne : k ≠ task := by
    rintro rfl
    rw [runs] at waits
    cases waits
  rw [phases, update_of_ne ne]
  refine ⟨(woken k waits).1, fun condition => ?_⟩
  rcases ready k waits condition with pre | now
  · exact owed ((woken k waits).2 pre)
  · exact now

theorem System.Owed.become (owed : s.Owed) (notice : s.loadNotice = true → s'.loadNotice = true)
    (phases : s'.phase = update s.phase task ph) (plain : ∀ ver, s.phase task ≠ .captured ver) : s'.Owed := by
  rcases owed with load | ⟨k, ver, captured⟩
  · exact .inl (notice load)
  refine .inr ⟨k, ver, ?_⟩
  have ne : k ≠ task := by
    rintro rfl
    exact plain ver captured
  rw [phases, update_of_ne ne]
  exact captured

structure Untouched (s after : System) : Prop where
  aliases : after.aliases = s.aliases
  aliasOf : after.aliasOf = s.aliasOf
  nextAlias : after.nextAlias = s.nextAlias
  live : after.live = s.live
  gate : after.gate = s.gate
  borrows : after.borrows = s.borrows
  content : after.content = s.content

theorem Untouched.storable (same : Untouched s s') (mp : Nat) : s'.Storable mp ↔ s.Storable mp := by
  simp only [Storable, same.live, same.aliasOf]

theorem Untouched.link (same : Untouched s s') : s'.link = s.link := by
  funext mp
  simp only [System.link, same.aliasOf]

theorem Mappings.untouched (mappings : Mappings s) (same : Untouched s s') : Mappings s' where
  nodup := same.aliases ▸ mappings.nodup
  known := by
    rw [same.aliases, same.nextAlias]
    exact mappings.known
  linked := by
    rw [same.link, same.nextAlias]
    exact mappings.linked
  listed := by
    intro mp fits
    rw [same.aliases]
    exact mappings.listed mp ((same.storable mp).mp fits)

theorem Faults.untouched (faults : Faults s k mp) (same : Untouched s s') : Faults s' k mp where
  listed := same.aliases ▸ faults.listed
  gate := by
    rw [same.gate, same.aliasOf]
    exact faults.gate
  live := by
    rw [same.live, same.aliasOf]
    exact faults.live
  borrow := same.borrows ▸ faults.borrow

theorem Untouched.exposed (same : Untouched s s') (phases : s'.phase = update s.phase task ph)
    (plain : ∀ mp, ph ≠ .faulting mp) (mp : Nat) (shown : s'.Exposed mp) : s.Exposed mp := by
  rcases shown with fits | ⟨k, fault⟩
  · exact .inl ((same.storable mp).mp fits)
  rw [phases] at fault
  obtain ⟨rfl, now⟩ | ⟨_, fault⟩ := of_update_eq fault
  · exact absurd now (plain mp)
  · exact .inr ⟨k, fault⟩

section
variable (inv : Consistent s)
include inv

theorem Consistent.move (phases : s'.phase = update s.phase task ph) (plain : ∀ mp, ph ≠ .faulting mp) (same : Untouched s s')
    (owned : ∃ owner, Ownership s' owner) (view : s.View ph) (woken : s'.Woken) : Consistent s' where
  owned := owned
  mappings := inv.mappings.untouched same
  faults := by
    intro k mp fault
    rw [phases] at fault
    obtain ⟨rfl, now⟩ | ⟨_, fault⟩ := of_update_eq fault
    · exact absurd now (plain mp)
    · exact (inv.faults k mp fault).untouched same
  views := by
    have keep : ∀ {ph}, s.View ph → s'.View ph := fun view =>
      view.mono same.aliases same.link (le_of_eq same.nextAlias.symm) (same.exposed phases plain)
        (fun empty => same.borrows.trans empty) (fun _ _ => same.content)
    intro k
    rw [phases]
    by_cases own : k = task
    · subst own
      rw [update_self]
      exact keep view
    · rw [update_of_ne own]
      exact keep (inv.views k)
  woken := woken

theorem Consistent.pass (runs : s.parked task = false) (quiet : (s.phase task).owns = false) (still : ph.owns = false)
    (plain : ∀ mp, ph ≠ .faulting mp) : Consistent (s.become task ph) := by
  obtain ⟨owner, held⟩ := inv.owned
  have opened : ph.closed = false := (Phase.not_owns still).2.1
  have uncaught : ∀ ver, s.phase task ≠ .captured ver := by
    intro ver captured
    rw [captured] at quiet
    cases quiet
  refine inv.move rfl plain ⟨rfl, rfl, rfl, rfl, rfl, rfl, rfl⟩ ⟨owner, held.pass rfl quiet still rfl rfl rfl id⟩ (View.unclosed opened) ?_
  refine inv.woken.mono rfl runs rfl ?_ fun owed => owed.become id rfl uncaught
  exact fun _ _ ready => .inl (by rwa [Ready.congr rfl rfl rfl rfl] at ready)

theorem Consistent.proceed (runs : s.parked task = false) (owns : (s.phase task).owns = true)
    (uncaught : ∀ ver, s.phase task ≠ .captured ver) (flag : ph.flag = (s.phase task).flag) (closed : ph.closed = (s.phase task).closed)
    (entry : ph.entry = (s.phase task).entry) (plain : ∀ mp, ph ≠ .faulting mp) (view : s.View ph) : Consistent (s.become task ph) := by
  obtain ⟨_, held⟩ := inv.owned
  obtain ⟨mine, flagged, word⟩ := held.mine owns
  refine inv.move rfl plain ⟨rfl, rfl, rfl, rfl, rfl, rfl, rfl⟩ ⟨_, held.settle (.inr mine) rfl
    (flagged.trans flag.symm) (by rwa [closed, entry]) rfl fun _ => ?_⟩ view ?_
  · exact held.loaded (by simp [mine])
  refine inv.woken.mono rfl runs rfl ?_ fun owed => owed.become id rfl uncaught
  exact fun _ _ ready => .inl (by rwa [Ready.congr rfl rfl rfl rfl] at ready)

theorem Consistent.park (waits : ¬ s.Ready (s.phase task)) : Consistent (s.park task) where
  owned := inv.owned.imp fun _ held => { held with }
  mappings := { inv.mappings with }
  faults := fun k mp fault => { inv.faults k mp fault with }
  views := fun k => (inv.views k).mono rfl rfl le_rfl (fun _ => id) id fun _ _ => rfl
  woken := by
    intro k parked
    by_cases own : k = task
    · subst own
      refine ⟨?_, fun ready => absurd ready waits⟩
      change (s.phase k).waits = true
      cases now : s.phase k with
      | writable | readable | selecting | resizing | draining => rfl
      | _ =>
        rw [now] at waits
        exact absurd trivial waits
    · have pre : update s.parked task true k = true := parked
      rw [update_of_ne own] at pre
      exact inv.woken k pre

theorem Consistent.settle (held : Ownership s owner) (mine : owner = none ∨ owner = some task)
    (phases : s'.phase = update s.phase task ph) (plain : ∀ mp, ph ≠ .faulting mp) (same : Untouched s s')
    (flag : s'.writeback = ph.flag) (word : s'.writes = pack ph.closed ph.entry s.borrows.length)
    (loaded : ph.owns = true → s'.loading = false) (view : s.View ph) (woken : s'.Woken) : Consistent s' :=
  inv.move phases plain same ⟨_, held.settle mine phases flag word same.borrows loaded⟩ view woken

end
end BoarOS.PageWriters
