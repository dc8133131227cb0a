import BoarOS.PageWriters.Writing

namespace BoarOS.PageWriters
open PageWriters.System

/-! # Runs -/

variable {s s' : System} {task : Nat} {action : Action}

theorem System.writerEnd_phase (done : s.writerEnd borrow = .ok ended) : ended.phase = s.phase := by
  rw [writerEnd] at done
  split at done
  · cases done
  obtain ⟨⟨_, notify⟩, _, rest⟩ := Data.bind_ok done
  cases rest
  cases notify <;> rfl

theorem unfaulting (idle : s.phase task = .idle) (mp : Nat) : s.phase task ≠ .faulting mp := by
  rw [idle]
  exact Phase.noConfusion

section
variable (inv : Consistent s)
include inv

theorem Consistent.waitWritable (runs : s.parked task = false) (now : s.phase task = .writable) : Consistent (s.waitWritable task) := by
  rw [System.waitWritable]
  split
  · exact inv.pass runs (by rw [now]; rfl) rfl nofun
  rename_i shut
  refine inv.park ?_
  rw [now]
  rintro (gone | opened)
  · simp [gone] at shut
  · simp [opened] at shut

theorem Consistent.waitReadable (runs : s.parked task = false) (now : s.phase task = .readable) : Consistent (s.waitReadable task) := by
  rw [System.waitReadable]
  split
  · exact inv.pass runs (by rw [now]; rfl) rfl nofun
  rename_i shut
  refine inv.park ?_
  rw [now]
  rintro ⟨loaded, opened⟩
  simp [loaded, opened] at shut

theorem Consistent.rearmed (runs : s.parked task = false) (now : s.phase task = .rearming closer (.visit mp))
    (ok : (decide (mp ∉ s.aliases) || s.gate (s.aliasOf mp).space == none || s.gate (s.aliasOf mp).space == some task) = true) :
    Consistent ((s.rearm mp).become task (.rearming closer (.advance mp))) := by
  have armed : Consistent (s.rearm mp) := inv.rearm
  have phases : (s.rearm mp).phase = s.phase := by
    rw [System.rearm]
    split <;> rfl
  have parked : (s.rearm mp).parked = s.parked := by
    rw [System.rearm]
    split <;> rfl
  have view := armed.views task
  rw [phases, now] at view
  refine armed.proceed (parked ▸ runs) ?_ ?_ ?_ ?_ ?_ (by simp) ⟨⟨view.covers, ?_⟩, ?_, trivial⟩
  · rw [phases, now]
    exact Phase.closed_owns rfl
  · rw [phases, now]
    simp
  · rw [phases, now]
    cases closer <;> rfl
  · rw [phases, now]
    rfl
  · rw [phases, now]
    cases closer <;> rfl
  · simp only [Bool.or_eq_true, decide_eq_true_eq, beq_iff_eq] at ok
    rintro (fits | ⟨ne, fault⟩)
    · rw [System.rearm] at fits
      split at fits
      · have leaf := fits.2
        simp [System.setLeaf] at leaf
      next kept =>
        have mem : mp ∈ s.aliases := inv.mappings.listed mp fits
        simp [mem, fits.1, fits.2] at kept
    rw [phases] at fault
    have faults := inv.faults ne mp fault
    rcases ok with (out | free) | mine
    · exact out faults.listed
    · rw [faults.gate] at free
      cases free
    rw [faults.gate] at mine
    cases mine
    rw [now] at fault
    cases fault
  · have drained := view.drained
    cases closer with
    | resize pins => trivial
    | writeback background pins writing =>
      cases writing with
      | false => exact drained
      | true => trivial

theorem Consistent.step (ran : s.step task action = .ok s') : Consistent s' := by
  unfold System.step at ran
  split at ran
  · cases ran
  rename_i awake
  have runs : s.parked task = false := by simpa using awake
  split at ran
  case h_1 idle =>
    obtain ⟨_, held⟩ := inv.owned
    obtain ⟨_, admission, rest⟩ := Data.bind_ok ran
    rcases held.begin_cases admission with ⟨_, rfl⟩ | ⟨opened, room, rfl⟩
    · cases rest
      exact inv
    · cases rest
      exact inv.admit _ opened room
  case h_2 idle =>
    have quiet : (s.phase task).owns = false := by rw [idle]; rfl
    have freed := inv.release runs (.inl rfl) quiet ran
    have unmoved : s'.become task .idle = s' := by
      have phases := writerEnd_phase ran
      rw [become, ← idle, ← phases, Function.update_eq_self]
    rwa [unmoved] at freed
  case h_3 idle =>
    split at ran
    next mem =>
      cases ran
      exact inv.put _ _ (inv.uncopied task (.borrowed mem))
    · cases ran
  case h_4 idle | h_6 idle =>
    cases ran
    exact inv.pass runs (by rw [idle]; rfl) rfl nofun
  case h_5 now =>
    cases ran
    exact inv.waitWritable runs now
  case h_7 now =>
    cases ran
    exact inv.waitReadable runs now
  case h_8 idle =>
    split at ran
    next free =>
      cases ran
      exact inv.gate _ _ (inv.unfaulted (unfaulting idle) (.inl (beq_iff_eq.mp free)))
    · cases ran
  case h_9 idle =>
    split at ran
    next mine =>
      cases ran
      exact inv.gate _ _ (inv.unfaulted (unfaulting idle) (.inr (beq_iff_eq.mp mine)))
    · cases ran
  case h_10 idle => exact inv.faultBegin runs idle ran
  case h_11 now =>
    cases ran
    exact inv.setLeaf fun _ => ⟨task, now⟩
  case h_12 now =>
    obtain ⟨_, freed, rest⟩ := Data.bind_ok ran
    cases rest
    exact inv.release runs (.inr rfl) (by rw [now]; rfl) freed
  case h_13 =>
    split at ran
    next fits =>
      simp only [Bool.and_eq_true, beq_iff_eq] at fits
      cases ran
      exact inv.put _ _ (inv.uncopied task (.stored _ fits))
    · cases ran
  case h_14 | h_15 =>
    split at ran
    · cases ran
      exact inv.attach _
    · cases ran
  case h_16 | h_17 =>
    split at ran
    · cases ran
      exact inv.setLeaf fun wrong => by cases wrong
    · cases ran
  case h_18 idle =>
    split at ran
    next ok =>
      simp only [Bool.and_eq_true, decide_eq_true_eq, Bool.or_eq_true, Bool.not_eq_true', beq_iff_eq] at ok
      cases ran
      refine inv.detach ok.1 ?_
      rintro (fits | ⟨k, fault⟩)
      · rcases ok.2 with dead | ⟨_, out⟩
        · cases dead.symm.trans fits.1
        · cases out.symm.trans fits.2
      have faults := inv.faults k _ fault
      rcases ok.2 with dead | ⟨mine, _⟩
      · rw [faults.live] at dead
        cases dead
      rw [faults.gate] at mine
      cases mine
      rw [idle] at fault
      cases fault
    · cases ran
  case h_19 idle =>
    split at ran
    next mine =>
      cases ran
      exact inv.teardown (inv.unfaulted (unfaulting idle) (.inr (beq_iff_eq.mp mine)))
    · cases ran
  case h_20 idle | h_35 idle =>
    split at ran
    · cases ran
      exact inv
    · cases ran
      exact inv.pass runs (by rw [idle]; rfl) rfl nofun
  case h_21 now =>
    cases ran
    exact inv.writebackSelect runs now _ _
  case h_22 now =>
    cases ran
    exact inv.proceed runs (by rw [now]; rfl) (by rw [now]; exact nofun) (by rw [now]; rfl) (by rw [now]; rfl) (by rw [now]; rfl) nofun
      (View.unclosed rfl)
  case h_23 now => exact inv.writebackClose runs now ran
  case h_24 now =>
    split at ran
    next ok =>
      cases ran
      exact inv.rearmed runs now ok
    · cases ran
  case h_25 now =>
    split at ran
    · cases ran
      exact inv.rearmBusy runs now
    · cases ran
  case h_26 now =>
    cases ran
    exact inv.advance runs now
  case h_27 now =>
    cases ran
    exact inv.drain runs now
  case h_28 now | h_30 now =>
    exact inv.writebackUnprepare (by rw [now]; rfl) (by rw [now]; rfl) (by rw [now]; rfl) ran
  case h_29 now =>
    cases ran
    exact inv.resizeUndo (by rw [now]; rfl) (by rw [now]; rfl)
  case h_31 now =>
    cases ran
    exact inv.copy runs now _
  case h_32 now => exact inv.writebackReopen runs now ran
  case h_33 now =>
    cases ran
    exact inv.notify now
  case h_34 now => exact inv.writebackComplete now ran
  case h_36 now =>
    cases ran
    exact inv.resizeClose runs now
  case h_37 now =>
    cases ran
    exact inv.put _ _ (inv.uncopied task (.resized now))
  case h_38 now => exact inv.resizeFinish now ran
  case h_39 =>
    split at ran
    next loading =>
      cases ran
      exact inv.put _ _ (inv.uncopied task (.loading loading))
    · cases ran
  case h_40 =>
    split at ran
    · cases ran
      exact inv.flags rfl ⟨rfl, rfl, rfl, rfl, rfl, rfl, rfl⟩ rfl rfl (fun _ => rfl)
        fun k waits => ⟨(inv.woken k waits).1, fun _ => .inl rfl⟩
    · cases ran
  case h_41 | h_42 =>
    split at ran
    · cases ran
      exact inv.flags rfl ⟨rfl, rfl, rfl, rfl, rfl, rfl, rfl⟩ rfl rfl id (.of_wake fun _ => rfl)
    · cases ran
  case h_43 => cases ran

end

theorem Reachable.consistent (run : Reachable s) : Consistent s := by
  induction run with
  | initial text => exact .initial text
  | step _ ran induction => exact induction.step ran

end BoarOS.PageWriters
