import BoarOS.Shm.Runs

namespace BoarOS.Shm
open Shm.System

/-! # Identifiers and lifetime of System V shared memory -/

variable {s later after s' : System} {slot : Slot} {result : Int}

theorem SlotOk.shmid_range (ok : SlotOk slot seg dead) (act : seg.active = true) : 0 ≤ seg.shmid ∧ seg.shmid < 2 ^ 31 := by
  have := ok.shmid_eq act
  have := ok.seq_eq
  have := slot.isLt
  rw [shmmni] at *
  omega

/-- An identifier comes back only after the sequence went through all its values. -/
theorem SlotOk.shmid_again (ok : SlotOk slot seg pre) (okAgain : SlotOk k again now) (act : seg.active = true)
    (activeAgain : again.active = true) (eq : again.shmid = seg.shmid) : k = slot ∧ now % 65535 = pre % 65535 := by
  refine ⟨Fin.ext (by rw [okAgain.val_eq activeAgain, ok.val_eq act, eq]), ?_⟩
  have first := ok.shmid_eq act
  have snd := okAgain.shmid_eq activeAgain
  rw [ok.seq_eq, shmmni] at first
  rw [okAgain.seq_eq, shmmni] at snd
  have := slot.isLt
  have := k.isLt
  omega

theorem kernelShmAtLookup_inr (got : kernelShmAtLookup s cred shmid shmflg = .inr pend) :
    (s.segments pend.slot).active = true ∧ (s.segments pend.slot).shmid = shmid := by
  rw [kernelShmAtLookup] at got
  split at got
  · cases got
  simp only at got
  split at got
  · cases got
  rename_i valid
  simp only [not_or, Bool.not_eq_false, not_not] at valid
  split at got
  · cases got
  generalize shmPermission _ _ _ = permission at got
  split at got
  · cases got
  cases got
  exact valid

section
variable [PageGeometry]

/-- The states some interleaving of the calls passes through, when every step
meets the condition. -/
inductive Path (meets : System → Step → Prop) (s : System) : System → Prop
  | refl : Path meets s s
  | step {before after : System} {step : Step} {result : Int} (path : Path meets s before)
      (allowed : step.Allowed before) (met : meets before step)
      (stepped : before.step step = some (result, after)) : Path meets s after

def undisturbed (s : System) (step : Step) : Prop := step.Undisturbed s

theorem Path.consistent (path : Path undisturbed s later) (con : Consistent s) :
    Consistent later ∧ ∀ slot, s.destroyed slot ≤ later.destroyed slot := by
  induction path with
  | refl => exact ⟨con, fun _ => le_rfl⟩
  | step path ok met ran carried =>
    obtain ⟨next, evolves⟩ := carried.1.step ok met ran
    exact ⟨next, fun slot => (carried.2 slot).trans (evolves.1 slot)⟩

theorem Consistent.attachment_of_ne_zero (con : Consistent s) (some_ : (s.segments slot).attachments ≠ 0) :
    ∃ a ∈ s.attachments, a.segment = slot := by
  rw [con.core.attachments.attachments_eq] at some_
  obtain ⟨a, mem, here⟩ := List.countP_pos_iff.mp (pos_of_ne_zero some_)
  exact ⟨a, mem, by simpa using here⟩

/-- A segment goes at the step that leaves its removal due and nobody attached. -/
theorem Consistent.destroyed_iff (con : Consistent s) {step : Step} (ok : step.Allowed s) (met : step.Undisturbed s)
    (ran : s.step step = some (result, s')) (act : (s.segments slot).active = true) :
    s'.destroyed slot = s.destroyed slot + 1 ↔ Removing s step slot ∧ ∀ a ∈ s'.attachments, a.segment ≠ slot := by
  obtain ⟨next, -, evolves⟩ := con.step ok met ran
  rcases evolves slot act with ⟨_, alive, marked⟩ | ⟨gone, dead, due⟩
  · refine ⟨fun more => by omega, fun ⟨due, nobody⟩ => ?_⟩
    obtain ⟨a, mem, here⟩ := next.attachment_of_ne_zero (next.kept slot alive (marked.mpr due))
    exact absurd here (nobody a mem)
  refine ⟨fun _ => ⟨due, fun a mem here => ?_⟩, fun _ => gone⟩
  have := (next.core.attachments.valid a mem).1
  rw [here, dead] at this
  cases this

/-- Nothing else empties a slot, and a slot that is not emptied keeps its segment. -/
theorem Consistent.alive_iff (con : Consistent s) {step : Step} (ok : step.Allowed s) (met : step.Undisturbed s)
    (ran : s.step step = some (result, s')) (act : (s.segments slot).active = true) :
    ((s'.segments slot).active = true ↔ s'.destroyed slot = s.destroyed slot) ∧ ((s'.segments slot).active = true →
        ((s'.segments slot).markedForDeletion = true ↔ Removing s step slot)) := by
  obtain ⟨-, -, evolves⟩ := con.step ok met ran
  rcases evolves slot act with ⟨kept, alive, marked⟩ | ⟨_, dead, -⟩
  · exact ⟨iff_of_true alive kept, fun _ => marked⟩
  refine ⟨iff_of_false (by rw [dead]; decide) (by omega), fun alive => ?_⟩
  rw [dead] at alive
  cases alive

/-- Over every interleaving in which a call that had to wait finds the slot it chose as it left it. -/
theorem shm_lifetime (path : Path undisturbed System.initial s) : (∀ slot, (s.segments slot).active = true →
      0 ≤ (s.segments slot).shmid ∧ (s.segments slot).shmid < 2 ^ 31) ∧
    (∀ first second, (s.segments first).active = true → (s.segments second).active = true →
      (s.segments first).shmid = (s.segments second).shmid → first = second) ∧
    (∀ a ∈ s.attachments, (s.segments a.segment).active = true ∧ (s.segments a.segment).shmid = s.requests a.address ∧
      (s.segments a.segment).memory = some a.memory ∧
      (a.address ∈ s.owners ∨ ∃ f ∈ s.fragments, f.attachment = a.address)) ∧
    (∀ later slot, Path undisturbed s later → (s.segments slot).active = true → ∀ cred shmflg pending,
        kernelShmAtLookup later cred (s.segments slot).shmid shmflg = .inr pending →
        pending.slot = slot ∧ (later.destroyed slot = s.destroyed slot ∨ s.destroyed slot + 65535 ≤ later.destroyed slot)) ∧
    (∀ key, key ≠ ipcPrivate → ∀ slot, findKey s.segments key = some slot ↔
      (s.segments slot).active = true ∧ (s.segments slot).markedForDeletion = false ∧ (s.segments slot).key = key) ∧
    (∀ step result after, step.Allowed s → step.Undisturbed s → s.step step = some (result, after) →
      ∀ slot, (s.segments slot).active = true → (after.destroyed slot = s.destroyed slot + 1 ↔
          Removing s step slot ∧ ∀ a ∈ after.attachments, a.segment ≠ slot) ∧
        ((after.segments slot).active = true ↔ after.destroyed slot = s.destroyed slot) ∧
        ((after.segments slot).active = true → ((after.segments slot).markedForDeletion = true ↔ Removing s step slot))) ∧
    (∀ object, s.memory object = (∑ slot, (s.segments slot).refers object) +
      s.attachments.countP (fun a => a.memory = object) + s.external.count object) ∧
    ∀ account, s.lockedPages account = ∑ slot, (s.segments slot).charge account := by
  obtain ⟨con, -⟩ := path.consistent Consistent.initial
  refine ⟨fun slot act => (con.core.slot slot).shmid_range act, fun first second => con.core.shmid_injective, fun a mem => ?_, ?_, ?_, ?_,
    con.core.accounted.memory_eq, con.core.accounted.locked_eq⟩
  · obtain ⟨act, shmid, memory⟩ := con.core.attachments.valid a mem
    refine ⟨act, shmid.trans (con.core.attachments.requested a mem).symm, memory, ?_⟩
    by_contra unheld
    obtain ⟨noOwner, noFragment⟩ := not_or.mp unheld
    have refs := con.core.attachments.references a mem
    rw [List.count_eq_zero.mpr noOwner, List.countP_eq_zero.mpr fun f fIn => by
      simpa using fun here => noFragment ⟨f, fIn, here⟩] at refs
    exact absurd refs (con.core.attachments.referenced a mem).ne'
  · intro later slot onward act cred shmflg pending got
    obtain ⟨conLater, older⟩ := onward.consistent con
    obtain ⟨activeLater, eq⟩ := kernelShmAtLookup_inr got
    obtain ⟨here, wrapped⟩ :=
      (con.core.slot slot).shmid_again (conLater.core.slot pending.slot) act activeLater eq
    rw [here] at wrapped
    have := older slot
    exact ⟨here, by omega⟩
  · intro key findable slot
    refine ⟨fun got => ?_, ?_⟩
    · have matched := List.find?_some got
      simp only [Bool.and_eq_true, Bool.not_eq_true', beq_iff_eq] at matched
      exact ⟨matched.1.1, matched.1.2, matched.2⟩
    · rintro ⟨act, clear, rfl⟩
      exact con.core.keys.findKey_eq act clear findable
  · intro step result after ok met ran slot act
    exact ⟨con.destroyed_iff ok met ran act, con.alive_iff ok met ran act⟩

def System.next (s : System) (step : Step) : System :=
  match s.step step with
  | none => s
  | some (_, after) => after

theorem Path.next (path : Path meets s later) (step : Step) (ok : step.Allowed later)
    (met : meets later step) (defined : (later.step step).isSome) : Path meets s (later.next step) := by
  obtain ⟨⟨_, s'⟩, ran⟩ := Option.isSome_iff_exists.mp defined
  have eq : later.next step = s' := by rw [System.next, ran]
  rw [eq]
  exact .step path ok met ran

end

section

attribute [local instance] PageGeometry.riscv

/-- A segment that is removed while attached stays until the attachment goes. -/
theorem shm_lifetime_attached : ∃ s, Path undisturbed System.initial s ∧ s.attachments.length = 1 ∧ s.requests 512 = 128 ∧
      (s.segments 0).markedForDeletion = true ∧ s.destroyed 0 = 0 ∧
      ∀ a ∈ s.attachments, (s.segments a.segment).active = true ∧ (s.segments a.segment).shmid = s.requests a.address := by
  have start : Path undisturbed initial initial := .refl
  have chosen := start.next (.getLookup 1 ⟨0, 0, 0, [], 0, 0⟩ 7 4096 0o1600) rfl trivial (by decide +kernel)
  have created := chosen.next (.getPublish 1 (.ok 64)) ⟨by decide +kernel, by rintro _ ⟨⟩; decide +kernel⟩ (fun pend wait => by
      have eq : some ⟨0, 7, 4096, 4096, 0o1600, 0, 0, 0, [], 0, 0⟩ = some pend :=
        (show some (⟨0, 7, 4096, 4096, 0o1600, 0, 0, 0, [], 0, 0⟩ : PendingGet) = _ by decide +kernel).trans wait
      rw [← Option.some.inj eq]
      exact ⟨by decide +kernel, fun _ => by decide +kernel⟩) (by decide +kernel)
  have got := created.next (.atLookup 1 ⟨0, 0, 0, [], 0, 0⟩ 128 0) (show _ = none by decide +kernel) trivial (by decide +kernel)
  have attached := got.next (.atCreate 1 0x10000 0x11000 (some 512)) ⟨by decide +kernel, by rintro _ ⟨⟩; decide +kernel⟩
    (fun pend wait => by
      have eq : some ⟨0, 128⟩ = some pend :=
        (show some (⟨0, 128⟩ : PendingAt) = _ by decide +kernel).trans wait
      rw [← Option.some.inj eq]
      decide +kernel) (by decide +kernel)
  have gone := attached.next (.control ⟨0, 0, 0, [], 0, 0⟩ 128 .rmid) trivial trivial (by decide +kernel)
  refine ⟨_, gone, by decide +kernel, by decide +kernel, by decide +kernel, by decide +kernel, fun a mem => ?_⟩
  obtain ⟨act, shmid, -⟩ := (shm_lifetime gone).2.2.1 a mem
  exact ⟨act, shmid⟩

/-- Between the two steps of `shmat` another process removes the segment and creates one in the same slot: the caller
who asked for 128 is attached to segment 256. -/
theorem shmat_other_segment : ∃ s a, Path (fun _ _ => True) System.initial s ∧ s.attachments = [a] ∧ s.requests a.address = 128 ∧
      (s.segments a.segment).active = true ∧ (s.segments a.segment).shmid = 256 := by
  have start : Path (fun _ _ => True) initial initial := .refl
  have chosen := start.next (.getLookup 1 ⟨0, 0, 0, [], 0, 0⟩ 7 4096 0o1600) rfl trivial (by decide +kernel)
  have created := chosen.next (.getPublish 1 (.ok 64)) ⟨by decide +kernel, by rintro _ ⟨⟩; decide +kernel⟩ trivial (by decide +kernel)
  have got := created.next (.atLookup 1 ⟨0, 0, 0, [], 0, 0⟩ 128 0) (show _ = none by decide +kernel) trivial (by decide +kernel)
  have gone := got.next (.control ⟨0, 0, 0, [], 0, 0⟩ 128 .rmid) trivial trivial (by decide +kernel)
  have chosenAgain := gone.next (.getLookup 2 ⟨0, 0, 0, [], 0, 0⟩ 8 4096 0o1600)
    (show _ = none by decide +kernel) trivial (by decide +kernel)
  have createdAgain := chosenAgain.next (.getPublish 2 (.ok 65))
    ⟨by decide +kernel, by rintro _ ⟨⟩; decide +kernel⟩ trivial (by decide +kernel)
  have attached := createdAgain.next (.atCreate 1 0x10000 0x11000 (some 512))
    ⟨by decide +kernel, by rintro _ ⟨⟩; decide +kernel⟩ trivial (by decide +kernel)
  exact ⟨_, ⟨512, 0, 65, 0x10000, 0x11000, 256, 1⟩, attached, by decide +kernel, by decide +kernel, by decide +kernel, by decide +kernel⟩

end
end BoarOS.Shm
