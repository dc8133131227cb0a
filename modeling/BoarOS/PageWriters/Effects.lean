import BoarOS.PageWriters.Runs

namespace BoarOS.PageWriters
open Function

/-! # What one step can change -/

variable {s s' : System} {task : Nat} {action : Action}

/-- The phases from the moment a closer has seen the last writer leave until it reopens the page. -/
def Phase.stable : Phase → Bool
  | .capturing _ | .resized => true
  | _ => false

structure Effect (s : System) (task : Nat) (after : System) : Prop where
  others : ∀ other, other ≠ task → after.phase other = s.phase other
  content : after.content = s.content ∨ s.Writes task
  stable : (s.phase task).stable = true → (after.phase task).stable = true ∨ anyClosed after.writes = false
  captured : ∀ version, after.phase task = .captured version → s.phase task = .captured version ∨
    (s.phase task = .capturing version ∧ after.content = s.content)

theorem Effect.still (phases : s'.phase = s.phase) (text : s'.content = s.content ∨ s.Writes task) : Effect s task s' where
  others := fun _ _ => by rw [phases]
  content := text
  stable := fun stable => .inl (by rwa [phases])
  captured := fun ver captured => .inl (by rwa [phases] at captured)

theorem Effect.move (phases : s'.phase = update s.phase task ph) (text : s'.content = s.content)
    (stable : (s.phase task).stable = true → ph.stable = true ∨ anyClosed s'.writes = false)
    (captured : ∀ ver, ph = .captured ver → s.phase task = .captured ver ∨ s.phase task = .capturing ver) : Effect s task s' where
  others := fun k ne => by rw [phases, update_of_ne ne]
  content := .inl text
  stable := fun pre => by
    rw [phases, update_self]
    exact stable pre
  captured := fun ver now => by
    rw [phases, update_self] at now
    exact (captured ver now).imp id fun capturing => ⟨capturing, text⟩

theorem Effect.pass (phases : s'.phase = update s.phase task ph) (text : s'.content = s.content)
    (now : s.phase task = was) (unstable : was.stable = false) (plain : ∀ ver, ph ≠ .captured ver) : Effect s task s' :=
  .move phases text (fun stable => by rw [now, unstable] at stable; cases stable) fun ver captured => absurd captured (plain ver)

theorem walkFrom_plain (closer : Closer) (start : Option Nat) (ver : List (Nat × UInt8)) : walkFrom closer start ≠ .captured ver := by
  cases start with
  | some mp => exact Phase.noConfusion
  | none =>
    cases closer with
    | resize pins => exact Phase.noConfusion
    | writeback background pins writing => cases writing <;> exact Phase.noConfusion

theorem System.writerEnd_content (done : s.writerEnd borrow = .ok ended) : ended.content = s.content := by
  rw [System.writerEnd] at done
  split at done
  · cases done
  obtain ⟨⟨_, notify⟩, _, rest⟩ := Data.bind_ok done
  cases rest
  cases notify <;> rfl

theorem Consistent.effect (inv : Consistent s) (ran : s.step task action = .ok s') : Effect s task s' := by
  obtain ⟨_, held⟩ := inv.owned
  unfold System.step at ran
  split at ran
  · cases ran
  split at ran
  case h_1 =>
    obtain ⟨res, admission, rest⟩ := Data.bind_ok ran
    rcases held.begin_cases admission with ⟨_, rfl⟩ | ⟨_, _, rfl⟩ <;> cases rest <;> exact .still rfl (.inl rfl)
  case h_2 => exact .still (System.writerEnd_phase ran) (.inl (System.writerEnd_content ran))
  case h_3 =>
    split at ran
    next mem =>
      cases ran
      exact .still rfl (.inr (.borrowed mem))
    · cases ran
  case h_4 now | h_6 now | h_22 now | h_29 now | h_33 now =>
    cases ran
    exact .pass rfl rfl now rfl (by simp)
  case h_5 now =>
    cases ran
    rw [System.waitWritable]
    split
    · exact .pass rfl rfl now rfl (by simp)
    · exact .still rfl (.inl rfl)
  case h_7 now =>
    cases ran
    rw [System.waitReadable]
    split
    · exact .pass rfl rfl now rfl (by simp)
    · exact .still rfl (.inl rfl)
  case h_10 idle =>
    rw [System.faultBegin] at ran
    split at ran
    · cases ran
    obtain ⟨_, admission, rest⟩ := Data.bind_ok ran
    rcases held.begin_cases admission with ⟨_, rfl⟩ | ⟨_, _, rfl⟩
    · cases rest
      refine .pass rfl rfl idle rfl fun _ => ?_
      split <;> exact Phase.noConfusion
    · cases rest
      exact .pass rfl rfl idle rfl (by simp)
  case h_12 now =>
    obtain ⟨ended, freed, rest⟩ := Data.bind_ok ran
    cases rest
    have phases := System.writerEnd_phase freed
    have text : ended.content = s.content := System.writerEnd_content freed
    exact .pass (by rw [← phases]; rfl) text now rfl fun _ => Phase.noConfusion
  case h_13 =>
    split at ran
    next fits =>
      simp only [Bool.and_eq_true, beq_iff_eq] at fits
      cases ran
      exact .still rfl (.inr (.stored _ fits))
    · cases ran
  case h_20 idle | h_35 idle =>
    split at ran
    · cases ran
      exact .still rfl (.inl rfl)
    · cases ran
      exact .pass rfl rfl idle rfl (by simp)
  case h_21 now =>
    cases ran
    rw [System.writebackSelect]
    have leave : Effect s task (s.become task .idle) := .pass rfl rfl now rfl (by simp)
    split
    · exact leave
    split
    · exact leave
    split
    · exact .pass rfl rfl now rfl (by simp)
    split
    · exact leave
    · exact .still rfl (.inl rfl)
  case h_23 now =>
    rw [System.writebackClose] at ran
    split at ran
    · split at ran
      · cases ran
        exact .pass rfl rfl now rfl (walkFrom_plain _ _)
      · cases ran
        exact .pass rfl rfl now rfl (by simp)
    split at ran
    · cases ran
    cases ran
    exact .pass rfl rfl now rfl (walkFrom_plain _ _)
  case h_24 closer mp now =>
    split at ran
    · cases ran
      have kept : (s.rearm mp).phase = s.phase ∧ (s.rearm mp).content = s.content := by
        rw [System.rearm]
        split <;> exact ⟨rfl, rfl⟩
      have phases : ((s.rearm mp).become task (.rearming closer (.advance mp))).phase =
          update s.phase task (.rearming closer (.advance mp)) := by
        rw [← kept.1]
        rfl
      exact .pass phases kept.2 now rfl (by simp)
    · cases ran
  case h_25 now =>
    split at ran
    · cases ran
      exact .pass rfl rfl now rfl (by simp)
    · cases ran
  case h_26 now =>
    cases ran
    exact .pass rfl rfl now rfl (walkFrom_plain _ _)
  case h_27 closer now =>
    cases ran
    cases closer with
    | writeback background pins writing =>
      rw [System.drain]
      split
      · exact .pass rfl rfl now rfl (by simp)
      · exact .still rfl (.inl rfl)
    | resize pins =>
      rw [System.drain]
      split
      · exact .pass rfl rfl now rfl (by simp)
      split
      · exact .pass rfl rfl now rfl (by simp)
      · exact .still rfl (.inl rfl)
  case h_28 now | h_30 now =>
    rw [System.writebackUnprepare] at ran
    split at ran
    · cases ran
    cases ran
    exact .pass rfl rfl now rfl (by simp)
  case h_31 now =>
    cases ran
    exact .move rfl rfl (fun _ => .inl rfl) fun _ wrong => by cases wrong
  case h_32 now =>
    obtain ⟨_, _, word⟩ := held.mine (by rw [now]; rfl : (s.phase task).owns = true)
    rw [now] at word
    rw [System.writebackReopen] at ran
    split at ran
    · cases ran
    cases ran
    refine .move rfl rfl (fun _ => .inr ?_) fun ver eq => by cases eq; exact .inr now
    change anyClosed (fetchAndNot s.writes cacheWritesClosed) = false
    rw [word]
    change anyClosed (fetchAndNot (pack true false s.borrows.length) cacheWritesClosed) = false
    rw [pack_clear_writes held.small, pack_anyClosed held.small]
    rfl
  case h_34 now =>
    rw [System.writebackComplete] at ran
    split at ran
    · cases ran
    cases ran
    exact .pass rfl rfl now rfl (by simp)
  case h_36 now =>
    cases ran
    rw [System.resizeClose]
    split
    · exact .pass rfl rfl now rfl (walkFrom_plain _ _)
    split
    · exact .pass rfl rfl now rfl (by simp)
    · exact .still rfl (.inl rfl)
  case h_37 now =>
    cases ran
    exact .still rfl (.inr (.resized now))
  case h_38 now =>
    rw [System.resizeFinish] at ran
    split at ran
    · cases ran
    cases ran
    exact .move rfl rfl (fun _ => .inr (show anyClosed 0 = false by decide +kernel)) fun _ wrong => by cases wrong
  case h_39 =>
    split at ran
    next loading =>
      cases ran
      exact .still rfl (.inr (.loading loading))
    · cases ran
  case h_43 => cases ran
  case h_11 =>
    cases ran
    exact .still rfl (.inl rfl)
  all_goals
    split at ran
    · cases ran
      exact .still rfl (.inl rfl)
    · cases ran

end BoarOS.PageWriters
