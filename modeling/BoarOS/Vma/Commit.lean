import BoarOS.Vma.Rewriting

namespace BoarOS.Vma
open Data List UInt64

/-! `kernel_vma_set_commit_edit` on the array: under what the prepares leave
behind, every step succeeds and asks the heap for nothing. -/

namespace KernelVmaSet
variable {set other : KernelVmaSet} {w next : World} {edit : KernelVmaEdit}
  {pre mid after : List KernelVma} {addr start stop : UInt64}

theorem splitNeeded_iff (lay : Layout set.live) : set.splitNeeded addr = true ↔ Straddles set.live addr := by
  unfold splitNeeded Straddles
  rcases search_cases lay addr with ⟨none, above⟩ | ⟨_, vma, _, split, i, _, lo, above⟩
  · simp only [none, lt_irrefl, decide_false, Bool.false_and, Bool.false_eq_true, false_iff]
    rintro ⟨vma, mem, lower, upper⟩
    have := (above vma mem).1
    omega
  have entry := live_entry split
  simp only [i, Nat.add_sub_cancel, entry, Nat.zero_lt_succ, decide_true, Bool.true_and,
    Bool.and_eq_true, decide_eq_true_eq, lt_iff_toNat_lt]
  constructor
  · intro around
    exact ⟨vma, by simp [split], around⟩
  rintro ⟨got, mem, lower, upper⟩
  rw [split] at mem
  simp only [mem_append, mem_cons] at mem
  rcases mem with inBefore | eq | inAfter
  · have := lo got inBefore
    omega
  · exact eq ▸ ⟨lower, upper⟩
  · have := (above got inAfter).1
    omega

theorem overlaps_spec (valid : set.valid = true) (lay : Layout set.live) (lt : start.toNat < stop.toNat) :
    ∃ answer, set.overlaps start stop = some answer ∧ (answer = true ↔ Overlaps set.live start stop) := by
  obtain ⟨pre, after, split, i, started, beyond, leftBound, rightBound⟩ := insertion_point lay start
  have ok : (!set.valid || decide (stop ≤ start)) = false := by
    rw [valid, Bool.not_true, Bool.false_or, decide_eq_false_iff_not, le_iff_toNat_le]
    omega
  refine ⟨_, by unfold overlaps; rw [ok]; rfl, ?_⟩
  simp only [i, Bool.or_eq_true, Bool.and_eq_true, decide_eq_true_eq, lt_iff_toNat_lt]
  obtain ⟨first, snd, _⟩ := live_parts split
  constructor
  · rintro (⟨some, reaches⟩ | ⟨some, reaches⟩)
    · have mem : set.entries (pre.length - 1) ∈ segment set.entries 0 pre.length :=
        mem_segment.mpr ⟨pre.length - 1, by omega, by rw [zero_add]⟩
      rw [← first] at mem
      have := started _ mem
      exact ⟨_, by rw [split]; simp [mem], by omega, reaches⟩
    · have mem := entry_mem some
      have inAfter : set.entries pre.length ∈ segment set.entries pre.length after.length := mem_segment.mpr ⟨0, by omega, rfl⟩
      rw [← snd] at inAfter
      have := beyond _ inAfter
      have := (lay.sound _ mem).nonempty
      exact ⟨_, mem, reaches, by omega⟩
  · rintro ⟨vma, mem, _⟩
    rw [split] at mem
    rcases mem_append.mp mem with inBefore | inAfter
    · have := leftBound vma inBefore
      exact .inl ⟨this.1, by omega⟩
    · have := rightBound vma inAfter
      exact .inr ⟨this.1, by omega⟩

/-- A step that keeps the allocation and the heap alone and whose attachment
calls match the entries it adds and drops. -/
structure InPlace (set : KernelVmaSet) (world : World) (other : KernelVmaSet) (next : World) : Prop where
  frame : Reshaped set other
  requests : next.requests = world.requests
  tracks : ∀ others, Tracks (set.live ++ others) world.shm → Tracks (other.live ++ others) next.shm

theorem InPlace.refl (set : KernelVmaSet) (w : World) : InPlace set w set w := ⟨Reshaped.refl _, rfl, fun _ tracks => tracks⟩

theorem InPlace.trans (first : InPlace set w other next) (snd : InPlace other next last final) : InPlace set w last final :=
  ⟨first.frame.trans snd.frame, snd.requests.trans first.requests, fun rest tracks => snd.tracks rest (first.tracks rest tracks)⟩

theorem splitAt_ok (lay : Layout set.live) (addr : UInt64) (w : World) (room : set.count + (set.splitNeeded addr).toNat ≤ set.capacity) :
    ∃ cut next, set.splitAt addr w = (.ok, cut, next) ∧ InPlace set w cut next ∧
      Cut addr set.live cut.live ∧ cut.count = set.count + (set.splitNeeded addr).toNat := by
  have splitting := splitAt_spec lay addr w
  generalize set.splitAt addr w = out at splitting
  cases splitting with
  | kept outside =>
    have unneeded : set.splitNeeded addr = false := by
      rw [← Bool.not_eq_true, splitNeeded_iff lay]
      rintro ⟨vma, mem, lo, upper⟩
      exact outside vma mem ⟨lt_iff_toNat_lt.mpr lo, lt_iff_toNat_lt.mpr upper⟩
    exact ⟨set, w, rfl, InPlace.refl _ _, .outside outside, by rw [unneeded]; rfl⟩
  | full mem lo upper full =>
    have needed : set.splitNeeded addr = true := (splitNeeded_iff lay).mpr ⟨_, mem, lt_iff_toNat_lt.mp lo, lt_iff_toNat_lt.mp upper⟩
    rw [needed, Bool.toNat_true] at room
    omega
  | cut split lo upper free frame n data =>
    rename_i pre after vma cut
    have needed : set.splitNeeded addr = true :=
      (splitNeeded_iff lay).mpr ⟨vma, by simp [split], lt_iff_toNat_lt.mp lo, lt_iff_toNat_lt.mp upper⟩
    refine ⟨cut, _, rfl, ⟨frame, World.shmAttachmentOpen_requests, ?_⟩, ?_, ?_⟩
    · intro rest tracks
      refine (tracks.attachmentOpen (vma.tailFrom addr)).congr fun att _ => ?_
      rw [data, split]
      simp only [attached_append, attached_cons, KernelVma.headTo_attachment]
      omega
    · rw [split, data]
      exact .inside lo upper
    · rw [n, needed]
      rfl

theorem closeLoop_eq (es : Nat → KernelVma) (rest i : Nat) (w : World) : closeLoop es rest i w = closeAll (segment es i rest) w := by
  induction rest generalizing i w with
  | zero => rfl
  | succ rest ih =>
    rw [closeLoop, ih, segment_cons]
    rfl

theorem lowerBound_boundary (lay : Layout set.live) (split : set.live = pre ++ after) (lo : ∀ a ∈ pre, a.stop.toNat ≤ addr.toNat)
    (above : ∀ b ∈ after, addr.toNat ≤ b.start.toNat) : set.lowerBound addr = pre.length := by
  refine lowerBound_eq lay split ?_ above
  intro a mem
  have ne := (lay.sound a (by rw [split]; simp [mem])).nonempty
  have := lo a mem
  omega

theorem boundary_unique (lay : Layout set.live) (split : set.live = pre ++ after)
    (lo : ∀ a ∈ pre, a.stop.toNat ≤ addr.toNat) (above : ∀ b ∈ after, addr.toNat ≤ b.start.toNat)
    (other : set.live = left ++ right) (otherBelow : ∀ a ∈ left, a.stop.toNat ≤ addr.toNat)
    (otherAbove : ∀ b ∈ right, addr.toNat ≤ b.start.toNat) : left = pre ∧ right = after := by
  refine append_inj (other.symm.trans split) ?_
  rw [← lowerBound_boundary lay split lo above, ← lowerBound_boundary lay other otherBelow otherAbove]

section
variable (lay : Layout set.live) (parts : Parts set.live start stop pre mid after)
  (lt : start.toNat < stop.toNat)

include lay parts lt

theorem Parts.lowerBound_start : set.lowerBound start = pre.length := by
  refine lowerBound_boundary lay parts.split parts.below ?_
  intro b mem
  rcases mem_append.mp mem with inMiddle | inAfter
  · exact (parts.inside b inMiddle).1
  have := parts.above b inAfter
  omega

theorem Parts.lowerBound_stop : set.lowerBound stop = pre.length + mid.length := by
  have split : set.live = (pre ++ mid) ++ after := by rw [parts.split, append_assoc]
  rw [lowerBound_boundary lay split ?_ parts.above, length_append]
  intro a mem
  rcases mem_append.mp mem with inBefore | inMiddle
  · have := parts.below a inBefore
    omega
  · exact (parts.inside a inMiddle).2

theorem removeRange_spec (w : World) : ∃ gone next, set.removeRange (set.lowerBound start) (set.lowerBound stop) w =
        (gone, next) ∧ InPlace set w gone next ∧ gone.live = pre ++ after := by
  refine ⟨_, _, rfl, ⟨?_, ?_, ?_⟩, ?_⟩
  all_goals
    rw [Parts.lowerBound_start lay parts lt, Parts.lowerBound_stop lay parts lt]
    simp only [moveEntries_count, Nat.add_sub_cancel_left]
  · rw [moveEntries_eq]
    rfl
  · rw [closeLoop_eq, closeAll_requests]
  · intro rest tracks
    have cells : segment set.entries pre.length mid.length = mid := by
      obtain ⟨_, snd, _⟩ := live_parts parts.split
      rw [length_append, segment_append] at snd
      exact (append_inj snd (by simp)).1.symm
    rw [removeRange_live parts.split, closeLoop_eq, cells]
    refine Tracks.closeAll (tracks.congr fun att _ => ?_)
    rw [parts.split]
    simp only [attached_append]
    omega
  · exact removeRange_live parts.split

end

theorem Insertion.tracks (insertion : Insertion set vma w (st, other, next)) (lay : Layout set.live) (sound : vma.Sound)
    (rest : List KernelVma) (tracks : Tracks (set.live ++ rest) w.shm) : Tracks (other.live ++ rest) next.shm := by
  cases insertion with
  | refused failed data shm cause =>
    rw [data.live, shm]
    exact tracks
  | extended split lo above detached frame n join separate =>
    refine tracks.congr fun att real => ?_
    rw [attached_append, join.attached ((split ▸ lay).insert sound lo above) real, split]
    have other : (vma.shmAttachment == att) = false := beq_false_of_ne (by rw [detached]; exact real.symm)
    simp only [attached_append, attached_cons, other, Bool.toNat_false]
    omega
  | placed split lo above data frame n room shm quiet live separate =>
    refine (Tracks.attachmentOpen (shm.symm ▸ tracks) vma).congr fun att _ => ?_
    rw [live, split]
    simp only [attached_append, attached_cons]
    omega

theorem insertEntry_ok (lay : Layout set.live) (sound : vma.Sound) (w : World) (split : set.live = pre ++ after)
    (lo : ∀ a ∈ pre, a.stop.toNat ≤ vma.start.toNat) (above : ∀ b ∈ after, vma.stop.toNat ≤ b.start.toNat)
    (room : set.count < set.capacity) (le : set.capacity ≤ uint32Max) :
    ∃ new next, set.insertEntry vma w = (.ok, new, next) ∧ InPlace set w new next ∧ new.count ≤ set.count + 1 ∧
      Joined (pre ++ vma :: after) new.live ∧ (Separate set.live → Separate new.live) := by
  have ne := sound.nonempty
  have insertion := insertEntry_spec lay sound w
  have beyond : ∀ b ∈ after, vma.start.toNat ≤ b.start.toNat := fun b mem => by
    have := above b mem
    omega
  generalize set.insertEntry vma w = out at insertion
  obtain ⟨_, new, _⟩ := out
  have tracks := insertion.tracks lay sound
  cases insertion with
  | refused failed data shm cause =>
    rcases cause with ⟨other, mem, _⟩ | _ | _
    · rw [split] at mem
      rcases mem_append.mp mem with inBefore | inAfter
      · have := lo other inBefore
        omega
      · have := above other inAfter
        omega
    · omega
    · omega
  | extended got foundBelow foundAbove detached frame n join separate =>
    obtain ⟨sameLeft, sameRight⟩ := boundary_unique lay split lo beyond got foundBelow fun b mem => by have := foundAbove b mem; omega
    subst sameLeft sameRight
    exact ⟨new, w, rfl, ⟨frame, rfl, tracks⟩, by omega, join, separate⟩
  | placed got foundBelow foundAbove data frame n fits shm quiet live separate =>
    obtain ⟨sameLeft, sameRight⟩ := boundary_unique lay split lo beyond got foundBelow fun b mem => by have := foundAbove b mem; omega
    subst sameLeft sameRight
    obtain ⟨eq, unasked⟩ := quiet room
    subst eq unasked
    exact ⟨new, _, rfl, ⟨frame, World.shmAttachmentOpen_requests, tracks⟩, by omega, live ▸ .refl _, separate⟩

theorem rewriteRange_ok (lay : Layout set.live) (w : World) (lt : edit.start.toNat < edit.stop.toNat)
    (parts : Parts set.live edit.start edit.stop pre mid after)
    (sound : edit.kind = .replace → edit.replacement.Sound ∧ edit.replacement.start = edit.start ∧ edit.replacement.stop = edit.stop)
    (fits : set.count ≤ bound) (within : bound ≤ set.capacity) (le : set.capacity ≤ uint32Max)
    (room : edit.kind = .replace → pre.length + after.length < bound) :
    ∃ edited next, set.rewriteRange edit w = (.ok, edited, next) ∧ InPlace set w edited next ∧ edited.count ≤ bound ∧
      (edit.kind ≠ .replace → edited.count ≤ set.count) ∧ Joined (pre ++ (replaced edit mid ++ after)) edited.live := by
  have start := Parts.lowerBound_start lay parts lt
  have stop := Parts.lowerBound_stop lay parts lt
  unfold rewriteRange
  by_cases rewrites : edit.kind = .protect ∨ edit.kind = .flags
  · rw [if_pos rewrites, start, stop, Nat.add_sub_cancel_left]
    have data : replaced edit mid = mid.map (editEntry edit) := by
      unfold replaced
      rcases rewrites with kind | kind <;> rw [kind]
    have live := mapRange_live (editEntry edit) parts.split
    refine ⟨_, w, rfl, ⟨rfl, rfl, ?_⟩, fits, fun _ => le_rfl, ?_⟩
    · intro rest tracks
      refine tracks.congr fun att _ => ?_
      rw [live, parts.split]
      simp only [attached_append, attached_map fun _ => editEntry_attachment]
    · rw [live, data]
      exact .refl _
  rw [if_neg rewrites]
  obtain ⟨gone, next, out, inPlace, live⟩ := removeRange_spec lay parts lt w
  have n : gone.count = pre.length + after.length := by
    rw [← live_length, live, length_append]
  have total : set.count = pre.length + (mid.length + after.length) := by
    rw [← live_length, parts.split, length_append, length_append]
  have cap := inPlace.frame.capacity_eq
  simp only [out]
  by_cases replaces : edit.kind = .replace
  · obtain ⟨replacementSound, sameStart, sameStop⟩ := sound replaces
    have removedLayout : Layout (pre ++ after) := parts.replace_layout lay Layout.nil (by simp)
    obtain ⟨edited, final, inserted, step, _, join, _⟩ :=
      insertEntry_ok (live ▸ removedLayout) replacementSound next live (sameStart ▸ parts.below) (sameStop ▸ parts.above)
        (by have := room replaces; omega) (cap ▸ le)
    have free := room replaces
    have data : replaced edit mid = [edit.replacement] := by rw [replaced, replaces]
    rw [if_pos replaces]
    exact ⟨edited, final, inserted, inPlace.trans step, by omega, fun other => absurd replaces other, by rwa [data]⟩
  have removes : edit.kind = .remove := by
    cases kind : edit.kind with
    | remove => rfl
    | replace => exact absurd kind replaces
    | protect => exact absurd (.inl kind) rewrites
    | flags => exact absurd (.inr kind) rewrites
  have data : replaced edit mid = [] := by rw [replaced, removes]
  rw [if_neg replaces]
  refine ⟨gone, next, rfl, inPlace, by omega, fun _ => by omega, ?_⟩
  rw [data, live]
  exact .refl _

/-- The representation invariant apart from page alignment: what `set_valid`
tests, the width of the capacity field, and the shape of the entries. -/
structure WellFormed (set : KernelVmaSet) : Prop where
  valid : set.valid = true
  bounded : set.capacity ≤ uint32Max
  layout : Layout set.live

/-- `WellFormed`, merged and with the byte counters that the entries add up to. -/
structure Canonical (set : KernelVmaSet) : Prop extends WellFormed set where
  separate : Separate set.live
  counted : Counted set

theorem Reshaped.valid (frame : Reshaped set other) (valid : set.valid = true)
    (fits : other.count ≤ other.capacity) : other.valid = true := by
  have allocated := frame.allocated_eq
  have cap := frame.capacity_eq
  rw [valid_iff] at valid ⊢
  rcases valid with ⟨unallocated, _, none⟩ | ⟨some, _⟩
  · exact .inl ⟨allocated.trans unallocated, by omega, cap.trans none⟩
  · exact .inr ⟨allocated.trans some, by omega, fits⟩

theorem WellFormed.nextGeneration (wf : WellFormed set) : WellFormed set.nextGeneration := ⟨wf.valid, wf.bounded, wf.layout⟩

theorem Canonical.nextGeneration (canon : Canonical set) : Canonical set.nextGeneration :=
  ⟨canon.toWellFormed.nextGeneration, canon.separate, ⟨canon.counted.total, canon.counted.data, canon.counted.locked⟩⟩

theorem WellFormed.recount (wf : WellFormed set) (frame : Reshaped set other) (lay : Layout other.live)
    (fits : other.count ≤ other.capacity) : ∃ cnt, other.recountBytes = .ok cnt ∧ WellFormed cnt ∧
      (Separate other.live → Canonical cnt) ∧ cnt.live = other.live ∧ cnt.self = set.self ∧ cnt.capacity = set.capacity ∧
      cnt.generation = set.generation := by
  obtain ⟨cnt, out, sums, eq⟩ := recountBytes_ok lay
  have live : cnt.live = other.live := by rw [eq]; rfl
  have countedWell : WellFormed cnt := by
    refine ⟨?_, ?_, live ▸ lay⟩
    · have valid := frame.valid wf.valid fits
      rw [eq]
      exact valid
    have cap := frame.capacity_eq
    rw [eq]
    exact cap ▸ wf.bounded
  refine ⟨cnt, out, countedWell, fun separate => ⟨countedWell, live ▸ separate, sums⟩, live, ?_, ?_, ?_⟩
  · rw [eq]
    exact frame.self_eq
  · rw [eq]
    exact frame.capacity_eq
  · rw [eq]
    exact frame.generation_eq

theorem mergeAll_frame (set : KernelVmaSet) (w : World) : Reshaped set (set.mergeAll w).1 := mergeAll_eq

/-- The cells that a removal or a replacement gives up, and the insertion into
the gap. -/
structure Removal (set : KernelVmaSet) (edit : KernelVmaEdit) (bound : Nat) (world : World)
    (edited : KernelVmaSet) (next : World) : Prop where
  fits : (set.removeRange (set.lowerBound edit.start) (set.lowerBound edit.stop) world).1.count ≤ bound
  insertion : edit.kind = .replace →
    (set.removeRange (set.lowerBound edit.start) (set.lowerBound edit.stop) world).1.insertEntry edit.replacement
      (set.removeRange (set.lowerBound edit.start) (set.lowerBound edit.stop) world).2 = (.ok, edited, next)

theorem rewriteRange_removal (rewrite : set.rewriteRange edit w = (.ok, edited, next)) (fits : set.count ≤ bound) :
    Removal set edit bound w edited next := by
  refine ⟨le_trans ?_ fits, fun replaces => ?_⟩
  · dsimp only [removeRange]
    rw [moveEntries_count]
    exact Nat.sub_le _ _
  unfold rewriteRange at rewrite
  rw [if_neg (by simp [replaces])] at rewrite
  simpa only [if_pos replaces] using rewrite

section
variable [PageGeometry] {bound : Nat}

/-- What a successful prepare leaves for its commit; `bound` is the capacity
that it has reserved. -/
structure Ready (set : KernelVmaSet) (edit : KernelVmaEdit) (bound : Nat) : Prop where
  owner : edit.set = some set.self
  generation : edit.generation = set.generation
  ordered : edit.start.toNat < edit.stop.toNat
  admissible : Admissible edit set.live
  room : set.count + (set.splitNeeded edit.start).toNat + (set.splitNeeded edit.stop).toNat ≤ bound
  gap : edit.kind = .replace → ¬ Overlaps set.live edit.start edit.stop → set.count < bound
  within : bound ≤ set.capacity

/-- A commit that goes through, step by step. No step has more entries than
`bound`, and the heap is not asked. -/
inductive Commit (set : KernelVmaSet) (edit : KernelVmaEdit) (bound : Nat) (world : World) :
    KernelVmaSet → World → Prop where
  | mk {first second edited result : KernelVmaSet} {afterStart afterStop next : World}
      (splitStart : set.splitAt edit.start world = (.ok, first, afterStart))
      (firstFits : first.count ≤ bound)
      (splitStop : first.splitAt edit.stop afterStart = (.ok, second, afterStop))
      (secondFits : second.count ≤ bound)
      (rewrite : second.rewriteRange edit afterStop = (.ok, edited, next))
      (editedFits : edited.count ≤ bound)
      (removal : edit.kind = .remove ∨ edit.kind = .replace → Removal second edit bound afterStop edited next)
      (outcome : set.commitEdit edit world = .ok (.ok, result, next))
      (requests : next.requests = world.requests)
      (rewriting : Rewriting edit set.live result.live)
      (canonical : Canonical result)
      (self : result.self = set.self) (capacity : result.capacity = set.capacity)
      (count : edit.kind ≠ .replace → result.count ≤ set.count + 2)
      (generation : result.generation = (set.generation + 1) % 2 ^ 64)
      (tracks : ∀ others, Tracks (set.live ++ others) world.shm → Tracks (result.live ++ others) next.shm) :
      Commit set edit bound world result next

theorem Ready.splits (ready : Ready set edit bound) (lay : Layout set.live) (w : World) :
    ∃ first afterStart snd afterStop, set.splitAt edit.start w = (.ok, first, afterStart) ∧ first.count ≤ bound ∧
      first.splitAt edit.stop afterStart = (.ok, snd, afterStop) ∧ snd.count ≤ bound ∧ InPlace set w snd afterStop ∧
      Cut edit.start set.live first.live ∧ Cut edit.stop first.live snd.live ∧
      snd.count ≤ set.count + (set.splitNeeded edit.start).toNat + (set.splitNeeded edit.stop).toNat := by
  have room := ready.room
  have within := ready.within
  obtain ⟨first, afterStart, splitStart, stepStart, cutStart, _⟩ := splitAt_ok lay edit.start w (by omega)
  have firstLayout := cutStart.layout lay
  have cap := stepStart.frame.capacity_eq
  have needed : (first.splitNeeded edit.stop).toNat ≤ (set.splitNeeded edit.stop).toNat := by
    cases inFirst : first.splitNeeded edit.stop with
    | false => exact Nat.zero_le _
    | true =>
      have inSet := cutStart.straddles ((splitNeeded_iff firstLayout).mp inFirst)
      rw [(splitNeeded_iff lay).mpr inSet]
  obtain ⟨snd, afterStop, splitStop, stepStop, cutStop, _⟩ := splitAt_ok firstLayout edit.stop afterStart (by omega)
  exact ⟨first, afterStart, snd, afterStop, splitStart, by omega, splitStop, by omega,
    stepStart.trans stepStop, cutStart, cutStop, by omega⟩

theorem Ready.accepted (ready : Ready set edit bound) (valid : set.valid = true) : set.commitEdit edit w = set.applyEdit edit w := by
  have lt := ready.ordered
  unfold commitEdit
  rw [if_neg, if_neg]
  · rintro ⟨kind, rejected⟩
    obtain ⟨new, start, stop⟩ := ready.admissible.replace kind
    simp [new, start, stop] at rejected
  simp only [valid, ready.owner, ready.generation, Bool.not_true, Bool.false_or, Bool.or_eq_true,
    decide_eq_true_eq, ne_eq, not_true_eq_false, false_or, le_iff_toNat_le]
  omega

theorem Ready.commit (ready : Ready set edit bound) (wf : WellFormed set) (w : World) : ∃ res next, Commit set edit bound w res next := by
  have lay := wf.layout
  have lt := ready.ordered
  obtain ⟨first, afterStart, snd, afterStop, splitStart, firstFits, splitStop, secondFits, step,
    cutStart, cutStop, secondCount⟩ := ready.splits lay w
  have firstLayout := cutStart.layout lay
  have secondLayout := cutStop.layout firstLayout
  obtain ⟨pre, mid, after, parts⟩ := secondLayout.parts (Cut.clear_cut lay cutStart cutStop) (cutStop.clear firstLayout)
  have pieces : ∀ m ∈ mid, ∃ whole ∈ set.live, PartOf m whole := by
    intro m member
    obtain ⟨part, inFirst, inner⟩ := cutStop.partOf (show m ∈ snd.live by rw [parts.split]; simp [member])
    obtain ⟨whole, inSet, outer⟩ := cutStart.partOf inFirst
    exact ⟨whole, inSet, inner.trans outer⟩
  have middleLayout : Layout mid := (Layout.append_iff.mp (Layout.append_iff.mp (parts.split ▸ secondLayout)).2.1).1
  obtain ⟨freshLayout, mem⟩ := ready.admissible.replaced_layout middleLayout parts.inside pieces
  have total : snd.count = pre.length + (mid.length + after.length) := by
    rw [← live_length, parts.split, length_append, length_append]
  have cap := step.frame.capacity_eq
  have room : edit.kind = .replace → pre.length + after.length < bound := by
    intro kind
    cases data : mid with
    | cons m rest =>
      rw [data, length_cons] at total
      omega
    | nil =>
      have apart : ¬ Overlaps set.live edit.start edit.stop := fun overlaps =>
        overlaps.middle_ne_nil lay lt cutStart cutStop parts data
      have free := ready.gap kind apart
      have wholeStart : set.splitNeeded edit.start = false := by
        rw [← Bool.not_eq_true, splitNeeded_iff lay]
        exact fun straddles => apart (straddles.overlaps_start lt)
      have wholeStop : set.splitNeeded edit.stop = false := by
        rw [← Bool.not_eq_true, splitNeeded_iff lay]
        exact fun straddles => apart (straddles.overlaps_stop lt)
      rw [wholeStart, wholeStop] at secondCount
      simp only [Bool.toNat_false] at secondCount
      omega
  have le : snd.capacity ≤ uint32Max := cap ▸ wf.bounded
  obtain ⟨edited, next, rewrite, inPlace, editedFits, editedCount, join⟩ :=
    rewriteRange_ok secondLayout afterStop lt parts
      (fun kind => (ready.admissible.replace kind).imp_left fun valid => (KernelVma.valid_iff.mp valid).1)
      secondFits (cap ▸ ready.within) le room
  have within := ready.within
  have rewrittenLayout := parts.replace_layout secondLayout freshLayout mem
  have editedLayout := join.layout rewrittenLayout
  have frame := step.frame.trans inPlace.frame
  have mergedCount := mergeAll_count edited next
  obtain ⟨cnt, recount, _, canon, live, self, sameCapacity, gen⟩ :=
    wf.recount (frame.trans (mergeAll_frame edited next)) (by rw [mergeAll_live]; exact (mergeList_joined _).layout editedLayout)
      (by have := (mergeAll_frame edited next).capacity_eq; have := frame.capacity_eq; omega)
  rw [mergeAll_live] at live canon
  have unmoved : (edited.mergeAll next).2 = next := mergeAll_world editedLayout
  refine ⟨cnt.nextGeneration, next, .mk splitStart firstFits splitStop secondFits rewrite
    editedFits (fun _ => rewriteRange_removal rewrite secondFits) ?_ ?_ ?_
    (canon (mergeList_separate _)).nextGeneration self sameCapacity ?_ ?_ ?_⟩
  · rw [ready.accepted wf.valid]
    unfold applyEdit
    simp only [splitStart, splitStop, rewrite, recount, unmoved]
  · exact inPlace.requests.trans step.requests
  · exact .mk cutStart cutStop parts (parts.replace mem) rewrittenLayout
      (by change Joined _ cnt.live; rw [live]; exact join.trans (mergeList_joined _))
  · intro kind
    have merged : cnt.nextGeneration.count = (edited.mergeAll next).1.count := by
      rw [← live_length, ← live_length, mergeAll_live]
      exact congrArg List.length live
    have := Bool.toNat_le (set.splitNeeded edit.start)
    have := Bool.toNat_le (set.splitNeeded edit.stop)
    have := editedCount kind
    omega
  · change (cnt.generation + 1) % 2 ^ 64 = _
    rw [gen]
  · intro others tracks
    have rewritten := inPlace.tracks others (step.tracks others tracks)
    refine rewritten.congr fun att real => ?_
    change attached att (cnt.live ++ others) = _
    rw [live, attached_append, attached_append, (mergeList_joined edited.live).attached editedLayout real]

end
end KernelVmaSet
end BoarOS.Vma
