import BoarOS.PageWriters.Effects

namespace BoarOS.PageWriters
open PageWriters.System Phase

/-! # Stable snapshots of a page exclude its writers -/

variable {s after s' : System} {task : Nat} {action : Action}
variable {owner : Option Nat}

theorem Phase.stable_closed {ph : Phase} (stable : ph.stable = true) : ph.closed = true := by
  cases ph with
  | capturing | resized => rfl
  | _ => cases stable

theorem Consistent.stable (inv : Consistent s) (stable : (s.phase task).stable = true) :
    s.borrows = [] ∧ writerCount s.writes = 0 ∧ (∀ mp, ¬ s.Storable mp) ∧ s.loading = false := by
  obtain ⟨_, held⟩ := inv.owned
  have mine := held.mine (closed_owns (stable_closed stable))
  have view := inv.views task
  have empty : s.borrows = [] := by
    cases now : s.phase task with
    | capturing | resized =>
      rw [now] at view
      exact view.drained
    | _ =>
      rw [now] at stable
      cases stable
  have hidden : ∀ mp, ¬ s.Exposed mp := by
    cases now : s.phase task with
    | capturing | resized =>
      rw [now] at view
      exact view.covers
    | _ =>
      rw [now] at stable
      cases stable
  refine ⟨empty, ?_, fun mp fits => hidden mp (.inl fits), held.loaded (by simp [mine.1])⟩
  rw [held.writerCount, empty]
  rfl

theorem Ownership.closed_iff (held : Ownership s owner) :
    PageWriters.writesClosed s.writes = true ↔ ∃ task, (s.phase task).closed = true := by
  rw [held.writesClosed]
  constructor
  · intro closed
    cases owner with
    | none => cases closed
    | some holder => exact ⟨holder, closed⟩
  · rintro ⟨_, closed⟩
    rw [(held.mine (closed_owns closed)).1]
    exact closed

/-- A close is undone by the task that made it, in the step in which that task stops being its owner. -/
theorem Consistent.undone (inv : Consistent s) (ran : s.step task action = .ok s')
    (closed : (s.phase k).closed = true) : ((s'.phase k).closed = true ∧ writesClosed s'.writes = true) ∨
      (k = task ∧ (s'.phase k).closed = false ∧ writesClosed s'.writes = false) := by
  obtain ⟨_, held⟩ := inv.owned
  obtain ⟨_, heldAfter⟩ := (inv.step ran).owned
  have effect := inv.effect ran
  cases still : (s'.phase k).closed with
  | true => exact .inl ⟨rfl, heldAfter.closed_iff.mpr ⟨k, still⟩⟩
  | false =>
    have own : k = task := by
      by_contra ne
      rw [effect.others k ne, closed] at still
      cases still
    refine .inr ⟨own, rfl, Bool.eq_false_iff.mpr fun shut => ?_⟩
    obtain ⟨third, shut⟩ := heldAfter.closed_iff.mp shut
    have away : third ≠ task := by
      rintro rfl
      rw [own, shut] at still
      cases still
    rw [effect.others third away] at shut
    have first := (held.mine (closed_owns closed)).1
    have snd := (held.mine (closed_owns shut)).1
    exact away ((Option.some.inj (snd.symm.trans first)).trans own)

theorem Ownership.begin_trap (held : Ownership s owner) (trapped : s.writerBegin borrow = .error .trap) : s.borrows.length = uint32Max := by
  rw [writerBegin, wordBegin, held.strayBits, held.writerCount] at trapped
  by_contra room
  cases closed : anyClosed s.writes <;> simp [room, closed, bind, Except.bind, pure, Except.pure] at trapped

theorem Ownership.end_trap (held : Ownership s owner) : s.writerEnd borrow ≠ .error .trap := by
  intro trapped
  rw [writerEnd] at trapped
  split at trapped
  · cases trapped
  rename_i mem
  rw [not_not] at mem
  have n := @wordEnd_pack (s.ownerBit owner closed) (s.ownerBit owner entry) _ held.small (List.length_pos_of_mem mem)
  rw [← held.word] at n
  simp [n, bind, Except.bind, pure, Except.pure] at trapped

/-- The only trap within reach is the overflow of the writer count. -/
theorem Consistent.trapped (inv : Consistent s) (ran : s.step task action = .error .trap) : s.borrows.length = uint32Max := by
  obtain ⟨_, held⟩ := inv.owned
  unfold System.step at ran
  split at ran
  · cases ran
  split at ran
  case h_1 =>
    cases begun : s.writerBegin (.buffered task) with
    | error why =>
      rw [begun] at ran
      cases ran
      exact held.begin_trap begun
    | ok res =>
      rw [begun] at ran
      cases res <;> cases ran
  case h_2 => exact absurd ran held.end_trap
  case h_10 mp pins idle =>
    rw [System.faultBegin] at ran
    split at ran
    · cases ran
    cases begun : s.writerBegin (.fault task) with
    | error why =>
      rw [begun] at ran
      cases ran
      exact held.begin_trap begun
    | ok res =>
      rw [begun] at ran
      cases res <;> cases ran
  case h_12 =>
    cases ended : s.writerEnd (.fault task) with
    | error why =>
      rw [ended] at ran
      cases ran
      exact absurd ended held.end_trap
    | ok res =>
      rw [ended] at ran
      cases ran
  case h_23 background pins now =>
    obtain ⟨_, _, word⟩ := held.mine (by rw [now]; rfl : (s.phase task).owns = true)
    rw [now] at word
    change s.writes = pack false false s.borrows.length at word
    rw [System.writebackClose, word, pack_writesClosed held.small, pack_strayBits held.small] at ran
    split at ran
    · split at ran <;> cases ran
    · cases ran
  case h_28 now =>
    obtain ⟨_, _, word⟩ := held.mine (by rw [now]; rfl : (s.phase task).owns = true)
    rw [now] at word
    change s.writes = pack true false s.borrows.length at word
    rw [System.writebackUnprepare, word, pack_writesClosed held.small] at ran
    cases ran
  case h_30 => cases ran
  case h_32 now =>
    obtain ⟨_, _, word⟩ := held.mine (by rw [now]; rfl : (s.phase task).owns = true)
    have empty := (inv.stable (by rw [now]; rfl : (s.phase task).stable = true)).1
    rw [now, empty] at word
    change s.writes = pack true false 0 at word
    rw [System.writebackReopen, word, pack_writes] at ran
    simp at ran
    cases ran
  case h_34 now =>
    obtain ⟨_, flag, _⟩ := held.mine (by rw [now]; rfl : (s.phase task).owns = true)
    rw [now] at flag
    change s.writeback = true at flag
    rw [System.writebackComplete, flag] at ran
    cases ran
  case h_38 now =>
    obtain ⟨_, _, word⟩ := held.mine (by rw [now]; rfl : (s.phase task).owns = true)
    have empty := (inv.stable (by rw [now]; rfl : (s.phase task).stable = true)).1
    rw [now, empty] at word
    change s.writes = pack true true 0 at word
    rw [System.resizeFinish, word, pack_both] at ran
    simp at ran
    cases ran
  all_goals first
    | cases ran
    | split at ran <;> cases ran

def System.run (s : System) : List (Nat × Action) → Except Stop System
  | [] => .ok s
  | (task, action) :: rest => do
      let next ← s.step task action
      next.run rest

theorem Reachable.run (run : Reachable s) (ran : s.run steps = .ok s') : Reachable s' := by
  induction steps generalizing s with
  | nil =>
    cases ran
    exact run
  | cons first rest induction =>
    obtain ⟨_, stepped, remaining⟩ := Data.bind_ok ran
    exact induction (run.step stepped) remaining

end BoarOS.PageWriters
