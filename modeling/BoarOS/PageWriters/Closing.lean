import BoarOS.PageWriters.Steps

namespace BoarOS.PageWriters
open PageWriters.System View

/-! # Steps of writebacks and resizes -/

variable {s s' : System} {task : Nat} {ph : Phase} {owner : Option Nat} {closer : Closer}
variable {ver : List (Nat × UInt8)}

theorem walkFrom_bits (closer : Closer) (start : Option Nat) :
    (walkFrom closer start).flag = (Phase.undoing closer).flag ∧ (walkFrom closer start).closed = true ∧
      (walkFrom closer start).entry = (Phase.undoing closer).entry ∧ ∀ mp, walkFrom closer start ≠ .faulting mp := by
  cases start with
  | some mp => cases closer <;> exact ⟨rfl, rfl, rfl, fun _ => Phase.noConfusion⟩
  | none =>
    cases closer with
    | writeback background pins writing =>
      cases writing <;> exact ⟨rfl, rfl, rfl, fun _ => Phase.noConfusion⟩
    | resize pins => exact ⟨rfl, rfl, rfl, fun _ => Phase.noConfusion⟩

theorem view_walkFrom (seen : ∀ next, start = some next → s.Covered next) (fin : start = none → ∀ mp, ¬ s.Exposed mp)
    (drained : ∀ background pins, closer = .writeback background pins false → s.borrows = []) : s.View (walkFrom closer start) := by
  cases start with
  | some mp =>
    refine ⟨seen mp rfl, ?_, trivial⟩
    cases closer with
    | resize pins => trivial
    | writeback background pins writing =>
      cases writing with
      | true => trivial
      | false => exact drained background pins rfl
  | none =>
    cases closer with
    | resize pins => exact ⟨fin rfl, trivial, trivial⟩
    | writeback background pins writing =>
      cases writing with
      | true => exact ⟨fin rfl, trivial, trivial⟩
      | false => exact ⟨fin rfl, drained background pins rfl, by simp [Copied, walkFrom, rearmed]⟩

theorem Consistent.view_start (inv : Consistent s)
    (drained : ∀ background pins, closer = .writeback background pins false → s.borrows = []) :
    s.View (walkFrom closer s.aliases.head?) := by
  refine view_walkFrom (fun next first => inv.mappings.covered_head inv.faults first) ?_ drained
  intro empty mp shown
  have none : s.aliases = [] := List.head?_eq_none_iff.mp empty
  have listed : mp ∈ s.aliases := by
    rcases shown with fits | ⟨ne, fault⟩
    · exact inv.mappings.listed mp fits
    · exact (inv.faults ne mp fault).listed
  rw [none] at listed
  cases listed

theorem System.Ready.shut {wait : Phase} (ready : s'.Ready wait) {writes entry writesAfter entryAfter : Bool}
    {n : Nat} (lt : n < 2 ^ 32) (word : s.writes = pack writes entry n)
    (wordAfter : s'.writes = pack writesAfter entryAfter n) (writesSet : writesAfter = false → writes = false)
    (entrySet : entryAfter = false → entry = false) (flag : s'.writeback = false → s.writeback = false)
    (old : s'.retired = s.retired) (loading : s'.loading = s.loading) : s.Ready wait := by
  cases wait with
  | writable =>
    refine ready.imp (fun gone => old ▸ gone) fun opened => ?_
    rw [wordAfter, pack_anyClosed lt, Bool.or_eq_false_iff] at opened
    rw [word, pack_anyClosed lt, writesSet opened.1, entrySet opened.2]
    rfl
  | readable =>
    refine ⟨loading ▸ ready.1, ?_⟩
    have opened := ready.2
    rw [wordAfter, pack_entryClosed lt] at opened
    rw [word, pack_entryClosed lt, entrySet opened]
  | selecting background pins =>
    refine ready.imp (fun gone => old ▸ gone) fun free => ⟨flag free.1, ?_⟩
    have opened := free.2
    rw [wordAfter, pack_writesClosed lt] at opened
    rw [word, pack_writesClosed lt, writesSet opened]
  | resizing pins =>
    refine ⟨flag ready.1, loading ▸ ready.2.1, ?_⟩
    have opened := ready.2.2
    rw [wordAfter, pack_anyClosed lt, Bool.or_eq_false_iff] at opened
    rw [word, pack_anyClosed lt, writesSet opened.1, entrySet opened.2]
    rfl
  | draining closer =>
    have drained : writerCount s'.writes = 0 := ready
    rw [wordAfter, pack_writerCount lt] at drained
    change writerCount s.writes = 0
    rw [word, pack_writerCount lt, drained]
  | _ => trivial

section
variable (inv : Consistent s)
include inv

namespace Consistent

theorem writebackSelect (runs : s.parked task = false) (now : s.phase task = .selecting background pins)
    (clean ok : Bool) : Consistent (s.writebackSelect task background pins clean ok) := by
  have quiet : (s.phase task).owns = false := by rw [now]; rfl
  have leave : Consistent (s.become task .idle) := inv.pass runs quiet rfl nofun
  rw [System.writebackSelect]
  split
  · exact leave
  rename_i dirty
  split
  · exact leave
  rename_i usable
  split
  next free =>
    simp only [Bool.and_eq_true, Bool.not_eq_true', Bool.or_eq_true, not_or, Bool.not_eq_true] at free usable
    obtain ⟨_, held⟩ := inv.owned
    have vacant := held.free free.1 free.2
    have word := held.word
    subst vacant
    refine inv.settle held (.inl rfl) rfl nofun ⟨rfl, rfl, rfl, rfl, rfl, rfl, rfl⟩ rfl word (fun _ => usable.1) (unclosed rfl) ?_
    refine inv.woken.mono rfl runs rfl (fun _ _ ready => .inl ?_) ?_
    · exact ready.shut held.small word word id id (fun set => by cases set) rfl rfl
    · exact fun owed => owed.become id rfl (by rw [now]; exact nofun)
  rename_i busy
  split
  · exact leave
  refine inv.park ?_
  rw [now]
  simp only [Bool.or_eq_true, not_or, Bool.not_eq_true] at dirty
  rintro (gone | free)
  · rw [dirty.1] at gone
    cases gone
  · simp [free.1, free.2] at busy

theorem writebackClose (runs : s.parked task = false) (now : s.phase task = .selected background pins)
    (closed : s.writebackClose task background pins = .ok s') : Consistent s' := by
  obtain ⟨_, held⟩ := inv.owned
  have owns : (s.phase task).owns = true := by rw [now]; rfl
  obtain ⟨mine, flag, word⟩ := held.mine owns
  rw [now] at flag word
  have loaded : s.loading = false := held.loaded (by simp [mine])
  have uncaught : ∀ ver, s.phase task ≠ .captured ver := by
    rw [now]
    exact nofun
  have shuts : ∀ (writing : Bool) (writes : Nat), writes = pack true false s.borrows.length → (writing = false → s.borrows = []) →
      Consistent ({ s with writes := writes }.become task (walkFrom (.writeback background pins writing) s.aliases.head?)) := by
    intro writing writes v drained
    obtain ⟨bits, shut, entry, plain⟩ := walkFrom_bits (.writeback background pins writing) s.aliases.head?
    refine inv.settle held (.inr mine) rfl plain ⟨rfl, rfl, rfl, rfl, rfl, rfl, rfl⟩ ?_ ?_ (fun _ => loaded) (inv.view_start ?_) ?_
    · rw [bits]
      exact flag
    · rw [shut, entry]
      exact v
    · intro _ _ eq
      cases eq
      exact drained rfl
    · refine inv.woken.mono rfl runs rfl (fun _ _ ready => .inl ?_) ?_
      · exact ready.shut held.small word v (fun set => by cases set) id id rfl rfl
      · exact fun owed => owed.become id rfl uncaught
  rw [System.writebackClose] at closed
  split at closed
  next deferred =>
    split at closed
    next idle =>
      have empty : s.borrows = [] := by
        have zero : s.writes = 0 := by simpa using idle
        rw [zero, ← pack_zero] at word
        exact List.length_eq_zero_iff.mp (pack_injective (by omega) held.small word).2.2.symm
      cases closed
      exact shuts false _ (by rw [empty]; rfl) fun _ => empty
    · cases closed
      exact inv.proceed runs owns uncaught (by rw [now]; rfl) (by rw [now]; rfl) (by rw [now]; rfl) nofun (unclosed rfl)
  · split at closed
    · cases closed
    · cases closed
      refine shuts _ _ ?_ ?_
      · rw [word]
        exact pack_set_writes held.small
      · rw [held.writerCount]
        simp

theorem writebackUnprepare (owns : (s.phase task).owns = true) (shut : (s.phase task).closed = closed)
    (entry : (s.phase task).entry = false) (undone : s.writebackUnprepare task closed = .ok s') : Consistent s' := by
  obtain ⟨_, held⟩ := inv.owned
  obtain ⟨mine, _, word⟩ := held.mine owns
  rw [shut, entry] at word
  rw [System.writebackUnprepare] at undone
  split at undone
  · cases undone
  cases undone
  refine inv.settle held (.inr mine) rfl nofun ⟨rfl, rfl, rfl, rfl, rfl, rfl, rfl⟩
    rfl ?_ (fun owned => by cases owned) (unclosed rfl) (.of_wake fun _ => rfl)
  cases closed with
  | true =>
    rw [word]
    exact pack_clear_writes held.small
  | false => exact word

theorem writebackReopen (runs : s.parked task = false) (now : s.phase task = .capturing ver)
    (reopened : s.writebackReopen task ver = .ok s') : Consistent s' := by
  obtain ⟨_, held⟩ := inv.owned
  obtain ⟨mine, flag, word⟩ := held.mine (by rw [now]; rfl)
  rw [now] at flag word
  rw [System.writebackReopen] at reopened
  split at reopened
  · cases reopened
  cases reopened
  refine inv.settle held (.inr mine) rfl nofun ⟨rfl, rfl, rfl, rfl, rfl, rfl, rfl⟩
    flag ?_ (fun _ => held.loaded (by simp [mine])) (unclosed rfl) ?_
  · rw [word]
    exact pack_clear_writes held.small
  have owed : ({ s with writes := fetchAndNot s.writes cacheWritesClosed }.become task (.captured ver)).Owed :=
    .inr ⟨task, ver, Function.update_self _ _ _⟩
  exact inv.woken.mono rfl runs rfl (fun _ _ _ => .inr owed) fun _ => owed

theorem notify (now : s.phase task = .captured ver) : Consistent (s.wake.become task (.submitted ver)) := by
  obtain ⟨_, held⟩ := inv.owned
  obtain ⟨mine, flag, word⟩ := held.mine (by rw [now]; rfl)
  rw [now] at flag word
  exact inv.settle held (.inr mine) rfl nofun ⟨rfl, rfl, rfl, rfl, rfl, rfl, rfl⟩
    flag word (fun _ => held.loaded (by simp [mine])) (unclosed rfl) (.of_wake fun _ => rfl)

theorem writebackComplete (now : s.phase task = .submitted ver) (completed : s.writebackComplete task = .ok s') : Consistent s' := by
  obtain ⟨_, held⟩ := inv.owned
  obtain ⟨mine, flag, word⟩ := held.mine (by rw [now]; rfl)
  rw [now] at word
  rw [System.writebackComplete] at completed
  split at completed
  · cases completed
  cases completed
  exact inv.settle held (.inr mine) rfl nofun ⟨rfl, rfl, rfl, rfl, rfl, rfl, rfl⟩
    rfl word (fun owned => by cases owned) (unclosed rfl) (.of_wake fun _ => rfl)

end Consistent
end

theorem Consistent.resizeClose (inv : Consistent s) (runs : s.parked task = false)
    (now : s.phase task = .resizing pins) : Consistent (s.resizeClose task pins) := by
  obtain ⟨_, held⟩ := inv.owned
  have quiet : (s.phase task).owns = false := by rw [now]; rfl
  rw [System.resizeClose]
  split
  next free =>
    simp only [Bool.and_eq_true, Bool.not_eq_true', anyClosed, Bool.or_eq_false_iff] at free
    have vacant := held.free free.1.1 free.2.1
    have word := held.word
    subst vacant
    obtain ⟨bits, shut, entry, plain⟩ := walkFrom_bits (.resize pins) s.aliases.head?
    have v : fetchOr s.writes (cacheWritesClosed ||| cacheEntryClosed) = pack true true s.borrows.length := by
      rw [word]
      exact pack_set_both held.small
    refine inv.settle held (.inl rfl) rfl plain ⟨rfl, rfl, rfl, rfl, rfl, rfl, rfl⟩ ?_ ?_
      (fun _ => free.1.2) (inv.view_start fun _ _ eq => by cases eq) ?_
    · rw [bits]
      exact free.1.1
    · rw [shut, entry]
      exact v
    · refine inv.woken.mono rfl runs rfl (fun _ _ ready => .inl ?_) ?_
      · exact ready.shut held.small word v (fun set => by cases set) (fun set => by cases set) id rfl rfl
      · exact fun owed => owed.become id rfl (by rw [now]; exact (by simp))
  next busy =>
    split
    · exact inv.pass runs quiet rfl (by simp)
    refine inv.park ?_
    rw [now]
    rintro ⟨flag, loading, opened⟩
    simp [flag, loading, opened] at busy

theorem Consistent.resizeUndo (inv : Consistent s) (owns : (s.phase task).owns = true)
    (flag : (s.phase task).flag = false) : Consistent (s.resizeUndo task) := by
  obtain ⟨_, held⟩ := inv.owned
  obtain ⟨mine, flagged, word⟩ := held.mine owns
  refine inv.settle held (.inr mine) rfl nofun ⟨rfl, rfl, rfl, rfl, rfl, rfl, rfl⟩
    (flagged.trans flag) ?_ (fun owned => by cases owned) (unclosed rfl) (.of_wake fun _ => rfl)
  change fetchAndNot s.writes (cacheWritesClosed ||| cacheEntryClosed) = _
  rw [word]
  exact pack_clear_both held.small

theorem Consistent.resizeFinish (inv : Consistent s) (now : s.phase task = .resized)
    (fin : s.resizeFinish task = .ok s') : Consistent s' := by
  obtain ⟨_, held⟩ := inv.owned
  obtain ⟨mine, flagged, word⟩ := held.mine (by rw [now]; rfl)
  have empty : s.borrows = [] := by
    have drained := (inv.views task).drained
    rw [now] at drained
    exact drained
  rw [now] at flagged
  rw [System.resizeFinish] at fin
  split at fin
  · cases fin
  cases fin
  exact inv.settle held (.inr mine) rfl nofun ⟨rfl, rfl, rfl, rfl, rfl, rfl, rfl⟩
    flagged (by rw [empty]; rfl) (fun owned => by cases owned) (unclosed rfl)
    (.of_wake fun _ => rfl)

section
variable (inv : Consistent s)
include inv

theorem Consistent.advance (runs : s.parked task = false) (now : s.phase task = .rearming closer (.advance mp)) :
    Consistent (s.become task (walkFrom closer (s.nextAliasOf mp))) := by
  have view := inv.views task
  rw [now] at view
  obtain ⟨⟨seen, armed⟩, drained, _⟩ := view
  obtain ⟨following, fin⟩ := seen.next inv.mappings armed
  obtain ⟨bits, shut, entry, plain⟩ := walkFrom_bits closer (s.nextAliasOf mp)
  refine inv.proceed runs ?_ ?_ ?_ ?_ ?_ plain (view_walkFrom following fin ?_)
  · rw [now]
    exact Phase.closed_owns rfl
  · rw [now]
    exact nofun
  · rw [bits, now]
    cases closer <;> rfl
  · rw [shut, now]
    rfl
  · rw [entry, now]
    cases closer <;> rfl
  · rintro _ _ rfl
    exact drained

theorem Consistent.rearmBusy (runs : s.parked task = false) (now : s.phase task = .rearming closer walk) :
    Consistent (s.become task (.undoing closer)) := by
  refine inv.proceed runs ?_ ?_ ?_ ?_ ?_ nofun ⟨trivial, trivial, trivial⟩
  · rw [now]
    exact Phase.closed_owns rfl
  · rw [now]
    exact nofun
  · rw [now]
    cases closer <;> rfl
  · rw [now]
    rfl
  · rw [now]
    cases closer <;> rfl

theorem Consistent.drain (runs : s.parked task = false) (now : s.phase task = .draining closer) : Consistent (s.drain task closer) := by
  have view := inv.views task
  rw [now] at view
  obtain ⟨_, held⟩ := inv.owned
  have owns : (s.phase task).owns = true := by
    rw [now]
    exact Phase.closed_owns rfl
  have uncaught : ∀ ver, s.phase task ≠ .captured ver := by
    rw [now]
    exact nofun
  have empty : (writerCount s.writes == 0) = true → s.borrows = [] := by
    intro zero
    rw [beq_iff_eq, held.writerCount] at zero
    exact List.length_eq_zero_iff.mp zero
  have waits : ¬ (writerCount s.writes == 0) = true → ¬ s.Ready (s.phase task) := by
    intro busy ready
    rw [now] at ready
    exact busy (beq_iff_eq.mpr ready)
  cases closer with
  | writeback background pins writing =>
    rw [drain]
    split
    next zero =>
      refine inv.proceed runs owns uncaught (by rw [now]; rfl) (by rw [now]; rfl) (by rw [now]; rfl) nofun ⟨view.covers, empty zero, ?_⟩
      simp [Copied]
    next busy =>
      exact inv.park (waits busy)
  | resize pins =>
    rw [drain]
    split
    next zero =>
      exact inv.proceed runs owns uncaught (by rw [now]; rfl) (by rw [now]; rfl) (by rw [now]; rfl) nofun ⟨view.covers, empty zero, trivial⟩
    rename_i busy
    split
    · exact inv.resizeUndo owns (by rw [now]; rfl)
    · exact inv.park (waits busy)

theorem Consistent.copy (runs : s.parked task = false) (now : s.phase task = .capturing ver) (offset : Nat) :
    Consistent (s.become task (.capturing ((offset, s.content offset) :: ver))) := by
  have view := inv.views task
  rw [now] at view
  refine inv.proceed runs (by rw [now]; rfl) (by rw [now]; exact nofun) (by rw [now]; rfl) (by rw [now]; rfl) (by rw [now]; rfl) nofun
    ⟨view.covers, view.drained, ?_⟩
  intro copy mem
  rcases List.mem_cons.mp mem with rfl | old
  · rfl
  · exact view.copied copy old

end
end BoarOS.PageWriters
