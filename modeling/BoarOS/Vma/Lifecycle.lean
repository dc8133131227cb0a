import BoarOS.Vma.Calls

namespace BoarOS.Vma
open Data List Layout

/-! The calls that rewrite a whole set: trimming, unlocking, and its life from
`create` or `fork` to `destroy`. -/

namespace KernelVmaSet
variable {set other : KernelVmaSet} {w : World} {vma left right : KernelVma}
  {es pre after : List KernelVma} {start stop addr : UInt64}

theorem canMerge_of_gap (gap : left.stop.toNat < right.start.toNat) : left.canMerge right = false := by
  rw [← Bool.not_eq_true, KernelVma.canMerge_iff]
  intro joins
  rw [joins.adjacent] at gap
  omega

def trimmedPart (vma : KernelVma) (newEnd : UInt64) : List KernelVma :=
  if newEnd = vma.start then [] else [vma.headTo newEnd]

theorem trimmedPart_layout (laid : Layout (pre ++ vma :: after)) (lo : vma.start.toNat ≤ newEnd.toNat)
    (upper : newEnd.toNat < vma.stop.toNat) : Layout (pre ++ (trimmedPart vma newEnd ++ after)) := by
  obtain ⟨first, snd, across⟩ := append_iff.mp laid
  obtain ⟨sound, rest, apart⟩ := cons_iff.mp snd
  have restLayout : Layout (pre ++ after) :=
    append_iff.mpr ⟨first, rest, fun a inBefore b inAfter =>
      across a inBefore b (by simp [inAfter])⟩
  unfold trimmedPart
  split
  · exact restLayout
  rename_i shortened
  have lt : vma.start.toNat < newEnd.toNat := by
    have : vma.start.toNat ≠ newEnd.toNat := fun eq => shortened (UInt64.toNat_inj.mp eq.symm)
    omega
  refine restLayout.insert (sound.headTo lt (le_of_lt upper)) ?_ ?_
  · exact fun a inBefore => across a inBefore vma (by simp)
  intro b inAfter
  exact le_trans (le_of_lt upper) (apart b inAfter)

theorem trimmedPart_separate (laid : Layout (pre ++ vma :: after)) (separate : Separate (pre ++ vma :: after))
    (upper : newEnd.toNat < vma.stop.toNat) : Separate (pre ++ (trimmedPart vma newEnd ++ after)) := by
  obtain ⟨_, snd, across⟩ := append_iff.mp laid
  obtain ⟨sound, _, apart⟩ := cons_iff.mp snd
  have ne := sound.nonempty
  obtain ⟨headChain, tailChain, joint⟩ := isChain_append.mp separate
  obtain ⟨_, restChain⟩ := isChain_cons.mp tailChain
  unfold trimmedPart
  split
  · refine isChain_append.mpr ⟨headChain, restChain, ?_⟩
    intro a last b first
    have inBefore := mem_of_getLast? last
    have inAfter := mem_of_head? first
    have := across a inBefore vma (by simp)
    have := apart b inAfter
    exact canMerge_of_gap (by omega)
  refine isChain_append.mpr ⟨headChain, isChain_cons.mpr ⟨?_, restChain⟩, ?_⟩
  · intro b first
    have := apart b (mem_of_head? first)
    exact canMerge_of_gap (by rw [KernelVma.headTo_stop]; omega)
  intro a last b first
  simp only [cons_append, head?_cons, Option.mem_def, Option.some.injEq] at first
  subst first
  exact joint a last vma (by simp)

theorem trimCell_spec (split : set.live = pre ++ vma :: after) (newEnd : UInt64) (w : World) :
    ∃ trimmed next, (if newEnd = vma.start then set.eraseEntry pre.length w
        else (set.setEntry pre.length { vma with stop := newEnd }, w)) = (trimmed, next) ∧
      InPlace set w trimmed next ∧ trimmed.live = pre ++ (trimmedPart vma newEnd ++ after) ∧
      trimmed.count ≤ set.count := by
  unfold trimmedPart
  split
  · have live := eraseEntry_live w split
    refine ⟨_, _, rfl, ⟨rfl, World.shmAttachmentClose_requests, ?_⟩, live, Nat.sub_le _ _⟩
    intro rest tracks
    change Tracks ((set.eraseEntry pre.length w).1.live ++ rest) _
    rw [live, live_entry split]
    refine Tracks.attachmentClose (tracks.congr fun att _ => ?_)
    rw [split]
    simp only [attached_append, attached_cons]
    omega
  · have live := setEntry_live (vma.headTo newEnd) split
    refine ⟨_, _, rfl, ⟨rfl, rfl, ?_⟩, live, le_rfl⟩
    intro rest tracks
    refine tracks.congr fun att _ => ?_
    change attached att ((set.setEntry pre.length (vma.headTo newEnd)).live ++ rest) = _
    rw [live, split]
    simp

/-- `trim_end` refuses and changes nothing, or shortens the entry it names. -/
inductive Trimmed (set : KernelVmaSet) (start oldEnd newEnd : UInt64) (world : World) :
    Status → KernelVmaSet → World → Prop where
  | refused {status : Status} (failed : status ≠ .ok) :
      Trimmed set start oldEnd newEnd world status set world
  | trimmed {before after : List KernelVma} {vma : KernelVma} {result : KernelVmaSet} {next : World}
      (split : set.live = before ++ vma :: after) (starts : vma.start = start)
      (stops : vma.stop = oldEnd) (lower : start.toNat ≤ newEnd.toNat)
      (upper : newEnd.toNat < oldEnd.toNat)
      (live : result.live = before ++ (trimmedPart vma newEnd ++ after))
      (wellFormed : WellFormed result) (canonical : Separate set.live → Canonical result)
      (self : result.self = set.self) (requests : next.requests = world.requests)
      (tracks : ∀ others, Tracks (set.live ++ others) world.shm → Tracks (result.live ++ others) next.shm) :
      Trimmed set start oldEnd newEnd world .ok result next

theorem trimEnd_spec (wf : WellFormed set) (start oldEnd newEnd : UInt64) (w : World) :
    ∃ st res next, set.trimEnd start oldEnd newEnd w = .ok (st, res, next) ∧ Trimmed set start oldEnd newEnd w st res next := by
  unfold trimEnd
  split
  · exact ⟨_, _, _, rfl, .refused (by decide)⟩
  rename_i ok
  split
  · exact ⟨_, _, _, rfl, .refused (by decide)⟩
  simp only [Bool.or_eq_true, not_or, Bool.not_eq_true', decide_eq_true_eq, Bool.not_eq_false,
    UInt64.le_iff_toNat_le, UInt64.lt_iff_toNat_lt, not_le, not_lt] at ok
  obtain ⟨⟨⟨_, _⟩, lo⟩, upper⟩ := ok
  simp only
  split
  · exact ⟨_, _, _, rfl, .refused (by decide)⟩
  rename_i got
  simp only [not_or, not_le, Decidable.not_not] at got
  obtain ⟨mem, starts, stops⟩ := got
  obtain ⟨_, _, split, len⟩ := live_at mem
  generalize entry : set.entries (set.lowerBound start) = vma at *
  rw [← len, ← starts]
  obtain ⟨_, _, out, inPlace, live, _⟩ := trimCell_spec split newEnd w
  rw [← starts] at lo
  rw [← stops] at upper
  have cap := inPlace.frame.capacity_eq
  have fits := valid_count wf.valid
  obtain ⟨_, recount, countedWell, canon, eq, self, _⟩ :=
    wf.recount inPlace.frame (live ▸ trimmedPart_layout (split ▸ wf.layout) lo upper) (by omega)
  simp only [out, recount]
  refine ⟨_, _, _, rfl, .trimmed split rfl stops lo (stops ▸ upper)
    (eq.trans live) countedWell.nextGeneration ?_ self inPlace.requests (eq ▸ inPlace.tracks)⟩
  intro separate
  refine (canon ?_).nextGeneration
  rw [live]
  exact trimmedPart_separate (split ▸ wf.layout) (split ▸ separate) upper

theorem unlocked_sound (sound : vma.Sound) : (unlocked vma).Sound := by
  refine { sound with flagsKnown := ?_, lockKind := ?_ }
  · change vma.flags &&& ~~~lockMask &&& ~~~allFlags = 0
    rw [BitVec.and_assoc, BitVec.and_comm (~~~lockMask), ← BitVec.and_assoc, sound.flagsKnown]
    exact BitVec.zero_and
  change vma.flags &&& ~~~lockMask &&& lockMask ≠ flagLockOnfault
  rw [BitVec.and_assoc, show ~~~lockMask &&& lockMask = 0#32 from by decide, BitVec.and_zero]
  decide

theorem unlocked_layout (laid : Layout es) : Layout (es.map unlocked) := by
  refine ⟨?_, pairwise_map.mpr laid.apart⟩
  intro v mem
  obtain ⟨source, inEntries, eq⟩ := mem_map.mp mem
  exact eq ▸ unlocked_sound (laid.sound source inEntries)

theorem bytesOf_unlocked (sel : KernelVma → Bool) (eq : ∀ vma, sel (unlocked vma) = sel vma) :
    bytesOf sel (es.map unlocked) = bytesOf sel es := by
  induction es with
  | nil => rfl
  | cons vma rest ih => rw [map_cons, bytesOf_cons, bytesOf_cons, ih, eq]; rfl

theorem bytesOf_locked_unlocked : bytesOf (fun vma => vma.flags &&& flagLocked ≠ 0) (es.map unlocked) = 0 := by
  induction es with
  | nil => rfl
  | cons vma rest ih =>
    have none : (unlocked vma).flags &&& flagLocked = 0 := by
      change vma.flags &&& ~~~lockMask &&& flagLocked = 0
      rw [BitVec.and_assoc]
      exact BitVec.and_zero
    rw [map_cons, bytesOf_cons, ih]
    simp [none]

/-- `kernel_vma_set_clear_locks` on a well-formed set whose counters are right. -/
structure LocksCleared (set : KernelVmaSet) (result : KernelVmaSet) : Prop where
  live : result.live = mergeList (set.live.map unlocked)
  wellFormed : WellFormed result
  canonical : Counted set → Canonical result
  self : result.self = set.self

theorem clearLocks_spec (wf : WellFormed set) (w : World) : ∃ res, set.clearLocks w = .ok (res, w) ∧ LocksCleared set res := by
  generalize clearing : ({ set with entries := mapRange unlocked set.count 0 set.entries, lockedBytes := 0 } : KernelVmaSet) = cleared
  have cells : set.live = [] ++ (set.live ++ []) := by simp
  have live : cleared.live = set.live.map unlocked := by
    have mapped := mapRange_live unlocked cells
    rw [live_length, append_nil] at mapped
    rw [← clearing]
    exact mapped
  have laid : Layout cleared.live := live ▸ unlocked_layout wf.layout
  have join := mergeList_joined cleared.live
  have frame := mergeAll_frame cleared w
  have fewer := mergeAll_count cleared w
  have mergedLive : (cleared.mergeAll w).1.live = mergeList cleared.live := mergeAll_live
  have clearedValid : cleared.valid = true := by rw [← clearing]; exact wf.valid
  have mergedWell : WellFormed (cleared.mergeAll w).1 := by
    have fits := valid_count clearedValid
    have cap := frame.capacity_eq
    refine ⟨frame.valid clearedValid (by omega), ?_, mergedLive ▸ join.layout laid⟩
    rw [cap, ← clearing]
    exact wf.bounded
  refine ⟨(cleared.mergeAll w).1.nextGeneration, ?_, ?_, mergedWell.nextGeneration, ?_, ?_⟩
  · unfold clearLocks
    rw [wf.valid]
    simp only [Bool.not_true, Bool.false_eq_true, if_false, clearing]
    rw [show (cleared.mergeAll w).2 = w from mergeAll_world laid]
  · rw [← live]
    exact mergedLive
  · intro cnt
    refine Canonical.nextGeneration ⟨mergedWell, mergedLive ▸ mergeList_separate _, ⟨?_, ?_, ?_⟩⟩
    · rw [mergedLive, join.bytesOf (fun _ _ _ _ => rfl) laid, live, bytesOf_unlocked _ fun _ => rfl, ← cnt.total, frame, ← clearing]
    · rw [mergedLive, join.bytesOf (fun _ _ _ _ => rfl) laid, live, bytesOf_unlocked _ fun _ => rfl, ← cnt.data, frame, ← clearing]
    · rw [mergedLive, join.bytesOf (fun _ _ _ _ => rfl) laid, live, bytesOf_locked_unlocked, frame, ← clearing]
  · change (cleared.mergeAll w).1.self = set.self
    rw [frame.self_eq, ← clearing]

theorem create_spec (self : Nat) (w : World) : ∃ st created next, create self w = (st, created, next) ∧ next.shm = w.shm ∧
      (∀ new, created = some new → Canonical new ∧ new.live = [] ∧ new.self = self ∧ new.allocated = false) := by
  unfold create
  cases w.replies w.requests with
  | ok =>
    refine ⟨_, _, _, rfl, rfl, ?_⟩
    intro new eq
    cases eq
    refine ⟨⟨⟨rfl, Nat.zero_le _, ?_⟩, ?_, ⟨rfl, rfl, rfl⟩⟩, rfl, rfl, rfl⟩
    · exact nil
    · exact .nil
  | _ => exact ⟨_, _, _, rfl, rfl, by simp⟩

theorem destroy_spec (valid : set.valid = true) (w : World) : set.destroy w = (.ok, closeAll set.live w) := by
  unfold destroy
  rw [valid]
  simp only [Bool.not_true, Bool.false_eq_true, if_false]
  split
  · rw [closeLoop_eq]
    rfl
  rename_i unallocated
  rcases valid_iff.mp valid with ⟨_, none, _⟩ | ⟨some, _⟩
  · rw [live, none]
    rfl
  · exact absurd some unallocated

def inherited (entries : List KernelVma) : List KernelVma :=
  (entries.filter fun vma => vma.flags &&& flagDontfork = 0).map unlocked

theorem inherited_layout (laid : Layout es) : Layout (inherited es) :=
  unlocked_layout ⟨fun vma mem => laid.sound vma (mem_of_mem_filter mem), laid.apart.filter _⟩

theorem inherited_cons : inherited (vma :: es) = if vma.flags &&& flagDontfork ≠ 0 then inherited es else unlocked vma :: inherited es := by
  unfold inherited
  rw [filter_cons]
  split <;> split <;> simp_all

theorem appendEntry_live (set : KernelVmaSet) (vma : KernelVma) : (set.appendEntry vma).live = set.live ++ [vma] := by
  change segment (Function.update set.entries set.count vma) 0 (set.count + 1) = _
  rw [segment_succ, segment_update (.inr (by omega)), zero_add, Function.update_self]
  rfl

theorem forkLoop_spec (source : KernelVmaSet) (rest i : Nat) (working : KernelVmaSet) (w : World) :
    ∃ copied next, forkLoop source rest i working w = (copied, next) ∧ Reshaped working copied ∧ copied.count ≤ working.count + rest ∧
      copied.live = working.live ++ inherited (segment source.entries i rest) ∧
      (∀ others, Tracks (working.live ++ others) w.shm → Tracks (copied.live ++ others) next.shm) := by
  induction rest generalizing i working w with
  | zero => exact ⟨_, _, rfl, Reshaped.refl _, le_rfl, by simp [inherited], fun _ => id⟩
  | succ rest ih =>
    rw [segment_cons, inherited_cons]
    unfold forkLoop
    split
    · obtain ⟨copied, next, out, frame, n, live, tracks⟩ := ih (i + 1) working w
      exact ⟨copied, next, out, frame, by omega, live, tracks⟩
    generalize unlocked (source.entries i) = child
    have longerLive := appendEntry_live working child
    have longerFrame : Reshaped working (working.appendEntry child) := rfl
    have longerCount : (working.appendEntry child).count = working.count + 1 := rfl
    obtain ⟨copied, next, out, frame, n, live, tracks⟩ := ih (i + 1) (working.appendEntry child) (w.shmAttachmentOpen child)
    refine ⟨copied, next, out, longerFrame.trans frame, by omega, ?_, ?_⟩
    · rw [live, longerLive, append_assoc]
      rfl
    intro others held
    refine tracks others ((held.attachmentOpen child).congr fun att _ => ?_)
    rw [longerLive]
    simp only [attached_append, attached_cons, attached_nil]
    omega

theorem fork_spec (wf : WellFormed set) (self : Nat) (w : World) :
    ∃ st child next, set.fork self w = .ok (st, child, next) ∧ (child = none → next.shm = w.shm) ∧
      (∀ made, child = some made → st = .ok ∧ Canonical made ∧ made.self = self ∧ Joined (inherited set.live) made.live ∧
        ∀ rest, Tracks rest w.shm → Tracks (made.live ++ rest) next.shm) := by
  unfold fork
  rw [wf.valid]
  simp only []
  obtain ⟨_, created, asked, creation, unchanged, properties⟩ := create_spec self w
  rw [creation]
  cases created with
  | none => exact ⟨_, _, _, rfl, fun _ => unchanged, by simp⟩
  | some working =>
    simp only
    obtain ⟨canon, empty, sameSelf, _⟩ := properties working rfl
    have res := reserveEntries_spec working set.count asked
    generalize working.reserveEntries set.count asked = out at res
    obtain ⟨reserveStatus, resv, next⟩ := out
    have data : Grown working resv := res.contents
    have shm : next.shm = asked.shm := res.shm
    have reservedWell := data.wellFormed canon.toWellFormed
    have reservedEmpty : resv.live = [] := data.live.trans empty
    have failed : (resv.destroy next).2.shm = w.shm := by
      rw [destroy_spec reservedWell.valid, reservedEmpty]
      exact shm.trans unchanged
    cases reserveStatus with
    | ok =>
      obtain ⟨copied, opened, copying, frame, n, live, tracks⟩ := forkLoop_spec set set.count 0 resv next
      rw [reservedEmpty] at live
      have copiedLayout : Layout copied.live := live ▸ inherited_layout wf.layout
      have join := mergeList_joined copied.live
      have mergedLive : (copied.mergeAll opened).1.live = mergeList copied.live := mergeAll_live
      have fewer := mergeAll_count copied opened
      have enough : set.count ≤ resv.capacity := res.enough rfl
      have reservedCount : resv.count = 0 := by
        rw [← live_length, reservedEmpty]
        rfl
      have mergedFrame := mergeAll_frame copied opened
      have cap := (frame.trans mergedFrame).capacity_eq
      obtain ⟨_, recount, _, countedCanonical, eq, countedSelf, _⟩ :=
        reservedWell.recount (frame.trans mergedFrame) (mergedLive ▸ join.layout copiedLayout) (by omega)
      rw [mergedLive] at eq countedCanonical
      have quiet : (copied.mergeAll opened).2 = opened := mergeAll_world copiedLayout
      simp only [copying, recount, quiet]
      refine ⟨_, _, _, rfl, by simp, ?_⟩
      intro made isMade
      cases isMade
      refine ⟨rfl, countedCanonical (mergeList_separate _), countedSelf.trans (data.self_eq.trans sameSelf), ?_, ?_⟩
      · rw [eq]
        exact live ▸ join
      intro rest held
      have start : Tracks (resv.live ++ rest) next.shm := by
        rw [reservedEmpty, shm, unchanged]
        exact held
      refine (tracks rest start).congr fun att real => ?_
      rw [eq, attached_append, attached_append, join.attached copiedLayout real]
    | _ => exact ⟨_, _, _, rfl, fun _ => failed, by simp⟩

end KernelVmaSet
end BoarOS.Vma
