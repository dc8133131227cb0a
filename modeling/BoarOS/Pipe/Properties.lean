import BoarOS.Pipe.Writing

namespace BoarOS.Pipe
open Data Option Pc

/-! # Resizes, and what holds in every run -/

variable {s after s' : State} {t : Nat} {action : Action} {res : Option State} {call : ResizeCall}

theorem roundUp_eq (size fuel rounded : Nat) : ∃ k, k ≤ fuel ∧ roundUp size fuel rounded = rounded * 2 ^ k := by
  induction fuel generalizing rounded with
  | zero => exact ⟨0, Nat.le_refl 0, by rw [roundUp, pow_zero, mul_one]⟩
  | succ fuel ih =>
    rw [roundUp]
    split
    · obtain ⟨k, lt, eq⟩ := ih (rounded <<< 1)
      refine ⟨k + 1, Nat.succ_le_succ lt, ?_⟩
      rw [eq, Nat.shiftLeft_eq, mul_assoc, ← Nat.pow_succ']
    · exact ⟨0, Nat.zero_le _, by rw [Nat.pow_zero, Nat.mul_one]⟩

theorem accountPipePages_eq (room : rest + new ≤ uint64Max) : accountPipePages (rest + old) old new = some (rest + new) := by
  unfold accountPipePages
  rw [if_neg (by omega), Nat.add_sub_cancel]

section
variable [PageGeometry]

theorem ResizeCall.nr_power (call : ResizeCall) : ∃ k, k ≤ 32 ∧ call.nr = 2 ^ k := by
  obtain ⟨k, lt, eq⟩ := roundUp_eq call.size 32 pageSize
  refine ⟨k, lt, ?_⟩
  rw [ResizeCall.nr, ResizeCall.rounded, eq, Nat.mul_div_cancel_left _ pageSize_pos]

namespace State
section
variable (inv : s.Inv)
include inv

theorem Inv.nextResize (was : s.pcs t = .resizing p) (held : (resizing p).holdsRead = true ∧ (resizing p).holdsWrite = true)
    (holds : (resizing q).holdsRead = true ∧ (resizing q).holdsWrite = true) (pcs : s'.pcs = Function.update s.pcs t (.resizing q))
    (locks : s'.readLock = s.readLock ∧ s'.writeLock = s.writeLock) (marks : s'.readSlot = s.readSlot ∧ s'.mergeSlot = s.mergeSlot)
    (ring : s'.ring.Ok) (spare : ∀ k, (s'.ring.buffers k).page ≠ none → s'.ring.Occupied k)
    (pages : Placed (places s'.ring (.resizing q) (.resizing q)) s'.owned) (fifo : s'.accepted = s'.returned ++ s'.ring.content s'.memory)
    (acc : s'.account = s.others + charged s'.ring (.resizing q) ∧ s'.others = s.others) : s'.Inv := by
  have readLocked := (inv.read t).mpr (by rw [was, held.1])
  have writeLocked := (inv.write t).mpr (by rw [was, held.2])
  have reader : nextHolderPc holdsRead s.readerPc (.resizing p) (.resizing q) = .resizing q := by
    simp [nextHolderPc, holds.1]
  have writer : nextHolderPc holdsWrite s.writerPc (.resizing p) (.resizing q) = .resizing q := by
    simp [nextHolderPc, holds.2]
  have unread := inv.reader
  have clear := inv.writer
  rw [inv.readerPc_eq (by rw [was, held.1]), was] at unread
  rw [inv.writerPc_eq (by rw [was, held.2]), was] at clear
  exact inv.next was pcs trivial (fun _ => .inr held.1) (fun _ => .inr held.2)
    (by simp [locks, readLocked, nextLock, holds]) (by simp [locks, writeLocked, nextLock, holds]) reader writer ring
    (marks.1.trans unread) (marks.2.trans clear) (fun k has => .inl (spare k has)) pages fifo
    ⟨by rw [acc.2]; exact acc.1, by rw [acc.2]; exact inv.account.2⟩

theorem Inv.alone (was : s.pcs t = .resizing p) (held : (resizing p).holdsRead = true ∧ (resizing p).holdsWrite = true) :
    (∀ k, (s.ring.buffers k).page ≠ none → s.ring.Occupied k) ∧ Placed (places s.ring (.resizing p) (.resizing p)) s.owned ∧
      s.account = s.others + charged s.ring (.resizing p) ∧ s.readSlot = none ∧ s.mergeSlot = none := by
  have mine : s.readerPc = .resizing p := by rw [inv.readerPc_eq (by rw [was, held.1]), was]
  have both : s.writerPc = .resizing p := by rw [inv.writerPc_eq (by rw [was, held.2]), was]
  have pages := inv.pages
  have acc := inv.account.1
  have unread := inv.reader
  have clear := inv.writer
  rw [mine, both] at pages
  rw [mine] at acc unread
  rw [both] at clear
  refine ⟨fun k has => (inv.spare k has).resolve_right fun here => ?_, pages, acc, unread, clear⟩
  rw [both] at here
  cases here

theorem Inv.resizeOn (was : s.pcs t = .resizing p) (held : (resizing p).holdsRead = true ∧ (resizing p).holdsWrite = true)
    (holds : (resizing q).holdsRead = true ∧ (resizing q).holdsWrite = true) (account : Nat)
    (charge : account = s.others + charged s.ring (.resizing q)) : Inv { s.goto t (.resizing q) with account := account } := by
  obtain ⟨spare, pages, _⟩ := inv.alone was held
  exact inv.nextResize was held holds rfl ⟨rfl, rfl⟩ ⟨rfl, rfl⟩ inv.ring spare
    (placed_congr pages (fun _ => rfl) rfl rfl) inv.fifo ⟨charge, rfl⟩

theorem Inv.relocate {pages : Nat} {out : Outcome} (was : s.pcs t = .resizing (.charged call pages))
    (room : s.ring.slots ≤ call.nr) : Inv { s.goto t (.resizing (.done out)) with ring := s.ring.relocate call.nr } := by
  obtain ⟨spare, placed, acc, _⟩ := inv.alone was ⟨rfl, rfl⟩
  obtain ⟨ok, q, buffers⟩ := inv.ring.relocate call.nr_power room
  refine inv.nextResize was ⟨rfl, rfl⟩ ⟨rfl, rfl⟩ rfl ⟨rfl, rfl⟩ ⟨rfl, rfl⟩ ok (fun k has => ?_) ?_ ?_ ⟨acc, rfl⟩
  · rw [buffers] at has
    split at has
    next lt =>
      exact ⟨k, lt, by
        change k = (0 + k) % call.nr
        rw [zero_add, Nat.mod_eq_of_lt (lt_of_lt_of_le lt room)]⟩
    · exact absurd rfl has
  · have old : ∀ i, (s.ring.relocate call.nr).buffers i ≠ .empty →
        i < s.ring.slots ∧ (s.ring.relocate call.nr).buffers i = s.ring.buffers ((s.ring.head + i) % s.ring.size) :=
      fun i has => by
        rw [buffers] at has ⊢
        split at has
        next lt =>
          exact ⟨lt, if_pos lt⟩
        · exact absurd rfl has
    have paged : ∀ i, ((s.ring.relocate call.nr).buffers i).page ≠ none → (s.ring.relocate call.nr).buffers i ≠ .empty :=
      fun i has empty => has (by rw [empty]; rfl)
    refine placed.rename (fun spot => match spot with
      | .slot i => .slot ((s.ring.head + i) % s.ring.size)
      | other => other) (fun spot has => ?_) (fun one two atOne atTwo eq => ?_) fun spot has => ?_
    · cases spot with
      | slot i => exact congrArg Buffer.page (old i (paged i has)).2
      | reader | writer => exact absurd rfl has
    · cases one with
      | reader | writer => exact absurd rfl atOne
      | slot i =>
        cases two with
        | reader | writer => exact absurd rfl atTwo
        | slot j =>
          have first := (old i (paged i atOne)).1
          have snd := (old j (paged j atTwo)).1
          have slots := inv.ring.slots
          rw [position_inj (by omega) (by omega) (Spot.slot.inj eq)]
    · cases spot with
      | reader => exact absurd rfl has
      | writer => exact absurd rfl has
      | slot k =>
        obtain ⟨i, lt, here⟩ := spare k has
        refine ⟨.slot i, by dsimp only; rw [here], ?_⟩
        change ((s.ring.relocate call.nr).buffers i).page = (s.ring.buffers k).page
        rw [buffers, if_pos lt, here]
  · rw [Ring.content, q]
    exact inv.fifo

theorem Inv.resizeStep (was : s.pcs t = .resizing p) (ran : s.resizeStep t p action = some res) : ∃ s', res = some s' ∧ s'.Inv := by
  unfold State.resizeStep at ran
  split at ran
  · -- check
    cases ran
    refine ⟨_, rfl, inv.outside was rfl rfl ?_ ?_⟩
    · split <;> trivial
    · split <;> exact ⟨rfl, rfl⟩
  · -- read
    split at ran
    next free =>
      cases ran
      exact ⟨_, rfl, inv.takeRead was free trivial ⟨rfl, rfl⟩ rfl id rfl rfl⟩
    · cases ran
  · -- write
    split at ran
    next free =>
      cases ran
      exact ⟨_, rfl, inv.takeWrite was free trivial ⟨rfl, rfl⟩ id id ⟨rfl, rfl⟩ rfl rfl⟩
    · cases ran
  · -- both
    rename_i call
    obtain ⟨_, _, acc, _⟩ := inv.alone was ⟨rfl, rfl⟩
    split at ran
    · cases ran
      exact ⟨_, rfl, inv.resizeOn was ⟨rfl, rfl⟩ ⟨rfl, rfl⟩ s.account acc⟩
    obtain ⟨k, lt, power⟩ := call.nr_power
    have most : call.nr ≤ 2 ^ 32 := by
      rw [power]
      exact Nat.pow_le_pow_right (by omega) lt
    have bounds := inv.account.2
    rw [show s.account = s.others + s.ring.size from acc, accountPipePages_eq (by omega), map_some, some.injEq] at ran
    rw [← ran]
    exact ⟨_, rfl, inv.resizeOn was ⟨rfl, rfl⟩ ⟨rfl, rfl⟩ _ rfl⟩
  · -- charged
    obtain ⟨_, _, acc, unread, clear⟩ := inv.alone was ⟨rfl, rfl⟩
    split at ran
    · cases ran
      exact ⟨_, rfl, inv.resizeOn was ⟨rfl, rfl⟩ ⟨rfl, rfl⟩ s.account acc⟩
    split at ran
    · cases ran
      exact ⟨_, rfl, inv.resizeOn was ⟨rfl, rfl⟩ ⟨rfl, rfl⟩ s.account acc⟩
    split at ran
    · cases ran
      exact ⟨_, rfl, inv.resizeOn was ⟨rfl, rfl⟩ ⟨rfl, rfl⟩ s.account acc⟩
    rename_i room
    rw [if_neg (by simp [unread, clear])] at ran
    cases ran
    exact ⟨_, rfl, inv.relocate was (Nat.le_of_not_lt room)⟩
  · -- revert
    rename_i call out
    obtain ⟨_, _, acc, _⟩ := inv.alone was ⟨rfl, rfl⟩
    obtain ⟨k, lt, power⟩ := inv.ring.power
    have most : s.ring.size ≤ 2 ^ 32 := by
      rw [power]
      exact Nat.pow_le_pow_right (by omega) lt
    have bounds := inv.account.2
    rw [show s.account = s.others + call.nr from acc, accountPipePages_eq (by omega), map_some, some.injEq] at ran
    rw [← ran]
    exact ⟨_, rfl, inv.resizeOn was ⟨rfl, rfl⟩ ⟨rfl, rfl⟩ _ rfl⟩
  · -- the write lock is given up
    rename_i out
    obtain ⟨spare, pages, acc, unread, clear⟩ := inv.alone was ⟨rfl, rfl⟩
    have locked := (inv.read t).mpr (by rw [was]; rfl)
    cases ran
    exact ⟨_, rfl, inv.next was rfl trivial (fun _ => .inr rfl) nofun locked rfl rfl rfl inv.ring unread clear
      (fun k has => .inl (spare k has)) (placed_congr pages (fun _ => rfl) rfl rfl) inv.fifo ⟨acc, inv.account.2⟩⟩
  · -- the read lock is given up
    cases ran
    exact ⟨_, rfl, inv.dropRead was rfl trivial rfl ⟨rfl, rfl⟩ id rfl rfl⟩
  · cases ran

theorem Inv.idleStep (was : s.pcs t = .idle out) (ran : s.idleStep t action = some res) : ∃ s', res = some s' ∧ s'.Inv := by
  unfold State.idleStep at ran
  split at ran
  · cases ran
    split
    · exact ⟨_, rfl, inv.outside was rfl rfl trivial ⟨rfl, rfl⟩⟩
    next some_ =>
      exact ⟨_, rfl, inv.outside was rfl rfl some_ ⟨rfl, rfl⟩⟩
  · cases ran
    split <;> exact ⟨_, rfl, inv.outside was rfl rfl trivial ⟨rfl, rfl⟩⟩
  · cases ran
    split <;> exact ⟨_, rfl, inv.outside was rfl rfl trivial ⟨rfl, rfl⟩⟩
  · cases ran

theorem Inv.step (ran : s.step t action = some res) : ∃ s', res = some s' ∧ s'.Inv := by
  unfold State.step at ran
  split at ran
  · cases ran
    exact ⟨_, rfl, inv.read, inv.write, inv.asks, inv.ring, inv.reader, inv.writer, inv.spare, inv.pages, inv.fifo, inv.account⟩
  · split at ran
    next pages room =>
      cases ran
      refine ⟨_, rfl, inv.read, inv.write, inv.asks, inv.ring, inv.reader, inv.writer, inv.spare, inv.pages, inv.fifo, ?_, room⟩
      change s.account - s.others + pages = pages + charged s.ring s.readerPc
      have acc := inv.account.1
      omega
    · cases ran
  cases was : s.pcs t with
  | idle out =>
    rw [was] at ran
    exact inv.idleStep was ran
  | reading p =>
    rw [was] at ran
    exact inv.readStep was ran
  | writing p =>
    rw [was] at ran
    exact inv.writeStep was ran
  | resizing p =>
    rw [was] at ran
    exact inv.resizeStep was ran

end

theorem inv_initial {few : Bool} {rest : Nat} {memory : Nat → Nat → UInt8} (bounds : rest + 2 ^ 32 ≤ uint64Max) :
    (initial few rest memory).Inv where
  read _ := ⟨nofun, nofun⟩
  write _ := ⟨nofun, nofun⟩
  asks _ := trivial
  ring := by
    refine ⟨?_, ?_, Nat.zero_le _, rfl, nofun, rfl⟩
    · cases few
      · exact ⟨4, by decide, rfl⟩
      · exact ⟨1, by decide, rfl⟩
    · cases few <;> exact Nat.succ_pos _
  reader := rfl
  writer := rfl
  spare _ present := absurd rfl present
  pages :=
    have nowhere : ∀ spot page, places (initial few rest memory).ring (initial few rest memory).readerPc
        (initial few rest memory).writerPc spot ≠ some page := fun spot page here => by cases spot <;> cases here
    ⟨fun one _ page atOne => absurd atOne (nowhere one page), fun page => ⟨nofun, fun ⟨spot, here⟩ =>
      absurd here (nowhere spot page)⟩⟩
  fifo := rfl
  account := ⟨rfl, bounds⟩

theorem Reachable.inv (reached : Reachable s) : s.Inv := by
  induction reached with
  | initial bounds => exact inv_initial bounds
  | step _ ran inv =>
    obtain ⟨_, eq, kept⟩ := inv.step ran
    cases eq
    exact kept

def run (s : State) : List (Nat × Action) → Option State
  | [] => some s
  | (t, action) :: rest => match s.step t action with
    | some (some next) => run next rest
    | _ => none

theorem Reachable.run (reached : Reachable s) (ran : s.run steps = some s') : Reachable s' := by
  induction steps generalizing s with
  | nil =>
    cases ran
    exact reached
  | cons first rest ih =>
    rw [State.run] at ran
    split at ran
    next next stepped =>
      exact ih (reached.step stepped) ran
    · cases ran

end State
end

namespace State

attribute [local instance] PageGeometry.riscv

end State
end BoarOS.Pipe
