import BoarOS.Vma.Entries

namespace BoarOS.Vma
open Data KernelVma

variable {w next : World} {vma : KernelVma} {entries : List KernelVma}
variable {cells : Nat → KernelVma} {other : KernelVmaSet}

@[simp] theorem World.shmAttachmentOpen_requests : (w.shmAttachmentOpen vma).requests = w.requests := by
  unfold World.shmAttachmentOpen
  split <;> rfl

@[simp] theorem World.shmAttachmentClose_requests : (w.shmAttachmentClose vma).requests = w.requests := by
  unfold World.shmAttachmentClose
  split <;> rfl

theorem World.shmAttachmentClose_detached (detached : vma.shmAttachment = 0) : w.shmAttachmentClose vma = w := by
  simp [World.shmAttachmentClose, detached]

def mergeFrom (current : KernelVma) : List KernelVma → List KernelVma
  | [] => [current]
  | vma :: rest =>
    if current.canMerge vma then mergeFrom (current.join vma) rest
    else current :: mergeFrom vma rest

def mergeList : List KernelVma → List KernelVma
  | [] => []
  | vma :: rest => mergeFrom vma rest

def Separate (entries : List KernelVma) : Prop :=
  entries.IsChain fun left right => left.canMerge right = false

theorem mergeFrom_joined (now : KernelVma) (entries : List KernelVma) : Joined (now :: entries) (mergeFrom now entries) := by
  induction entries generalizing now with
  | nil => exact .refl _
  | cons vma rest ih =>
    unfold mergeFrom
    split
    next joins =>
      have merged : Joined ([] ++ now.join vma :: rest) (mergeFrom (now.join vma) rest) := ih _
      exact .step (canMerge_iff.mp joins) merged
    · exact (ih vma).append_left [now]

theorem mergeList_joined (entries : List KernelVma) : Joined entries (mergeList entries) := by
  cases entries with
  | nil => exact .refl _
  | cons vma rest => exact mergeFrom_joined vma rest

theorem mergeFrom_head (now : KernelVma) (entries : List KernelVma) :
    ∃ stop rest, mergeFrom now entries = { now with stop := stop } :: rest := by
  induction entries generalizing now with
  | nil => exact ⟨now.stop, [], rfl⟩
  | cons vma rest ih =>
    unfold mergeFrom
    split
    · exact ih (now.join vma)
    · exact ⟨now.stop, _, rfl⟩

theorem mergeFrom_separate (now : KernelVma) (entries : List KernelVma) : Separate (mergeFrom now entries) := by
  induction entries generalizing now with
  | nil => exact .singleton _
  | cons vma rest ih =>
    unfold mergeFrom
    split
    · exact ih _
    rename_i apart
    obtain ⟨_, _, merged⟩ := mergeFrom_head vma rest
    have separate := ih vma
    rw [merged] at separate ⊢
    refine List.isChain_cons_cons.mpr ⟨?_, separate⟩
    exact Bool.not_eq_true _ ▸ apart

theorem mergeList_separate (entries : List KernelVma) : Separate (mergeList entries) := by
  cases entries with
  | nil => exact .nil
  | cons vma rest => exact mergeFrom_separate vma rest

namespace KernelVmaSet
variable {set grown : KernelVmaSet} {pre after : List KernelVma} {addr start stop : UInt64}

/-- The compaction loop keeps the cells below `output` and folds the rest. -/
theorem mergeLoop_live (remaining : Nat) (behind : output < i) :
    segment (mergeLoop remaining output i cells w).2.1 0 ((mergeLoop remaining output i cells w).1 + 1) =
      segment cells 0 output ++ mergeFrom (cells output) (segment cells i remaining) := by
  induction remaining generalizing output i cells w with
  | zero =>
    simp only [mergeLoop, segment_zero, mergeFrom]
    rw [segment_succ, zero_add]
  | succ remaining ih =>
    have rest : segment cells i (remaining + 1) = cells i :: segment cells (i + 1) remaining := segment_cons
    rw [rest]
    unfold mergeLoop mergeFrom
    split
    · rw [ih (by omega), segment_update (by omega), segment_update (by omega), Function.update_self]
      rfl
    have cell : (if output + 1 ≠ i then
        Function.update cells (output + 1) (cells i) else cells) (output + 1) = cells i := by
      split
      · exact Function.update_self ..
      congr 1
      omega
    have kept : ∀ first len, first + len ≤ output + 1 ∨ output + 1 < first → segment (if output + 1 ≠ i then
          Function.update cells (output + 1) (cells i) else cells) first len = segment cells first len := by
      intro first len out
      split
      · exact segment_update (by omega)
      · rfl
    rw [ih (by omega), cell, kept _ _ (by omega), kept _ _ (by omega), segment_succ, zero_add, List.append_assoc]
    rfl

/-- Only attached entries make the loop call `kernel_shm_attachment_close`,
and those are never merged. -/
theorem mergeLoop_world (rest : Nat) (behind : output < i)
    (sound : ∀ vma ∈ segment cells i rest, vma.Sound) : (mergeLoop rest output i cells w).2.2 = w := by
  induction rest generalizing output i cells w with
  | zero => rfl
  | succ rest ih =>
    rw [segment_cons] at sound
    have headSound := sound (cells i) (by simp)
    have restSound : ∀ vma ∈ segment cells (i + 1) rest, vma.Sound := fun vma mem => sound vma (by simp [mem])
    unfold mergeLoop
    split
    next joins =>
      have merge := canMerge_iff.mp joins
      have detached := headSound.detached (merge.kind ▸ merge.notSysv)
      rw [World.shmAttachmentClose_detached detached]
      apply ih (by omega)
      rw [segment_update (by omega)]
      exact restSound
    apply ih (by omega)
    split
    · rw [segment_update (by omega)]
      exact restSound
    · exact restSound

theorem mergeAll_live : (set.mergeAll w).1.live = mergeList set.live := by
  unfold mergeAll
  split
  next none =>
    simp [live, none, mergeList]
  have size : set.count = (set.count - 1) + 1 := by omega
  have folded : segment (mergeLoop (set.count - 1) 0 1 set.entries w).2.1 0
      ((mergeLoop (set.count - 1) 0 1 set.entries w).1 + 1) = mergeFrom (set.entries 0) (segment set.entries 1 (set.count - 1)) :=
    mergeLoop_live _ (by omega)
  conv => rhs; rw [live, size, segment_cons]
  exact folded

theorem mergeAll_world (laid : Layout set.live) : (set.mergeAll w).2 = w := by
  unfold mergeAll
  split
  · rfl
  apply mergeLoop_world _ (by omega)
  intro vma mem
  obtain ⟨_, _, cell⟩ := mem_segment.mp mem
  exact cell ▸ laid.sound _ (entry_mem (by omega))

theorem mergeAll_eq : (set.mergeAll w).1 = { set with entries := (set.mergeAll w).1.entries, count := (set.mergeAll w).1.count } := by
  unfold mergeAll
  split <;> rfl

theorem mergeLoop_output (rest output i : Nat) : (mergeLoop rest output i cells w).1 ≤ output + rest := by
  induction rest generalizing output i cells w with
  | zero => exact le_rfl
  | succ rest ih =>
    unfold mergeLoop
    split
    · exact le_trans (ih ..) (by omega)
    · exact le_trans (ih ..) (by omega)

theorem mergeAll_count (set : KernelVmaSet) (w : World) : (set.mergeAll w).1.count ≤ set.count := by
  unfold mergeAll
  split
  · exact le_rfl
  have bound : (mergeLoop (set.count - 1) 0 1 set.entries w).1 ≤ 0 + (set.count - 1) := mergeLoop_output ..
  dsimp only
  omega

def Reshaped (set other : KernelVmaSet) : Prop :=
  other = { set with entries := other.entries, count := other.count }

theorem Reshaped.refl (set : KernelVmaSet) : Reshaped set set := rfl

theorem Reshaped.trans (first : Reshaped set mid) (snd : Reshaped mid other) : Reshaped set other := by
  unfold Reshaped at first snd ⊢
  rw [snd, first]

section
variable (frame : Reshaped set other)
include frame

theorem Reshaped.self_eq : other.self = set.self := by rw [frame]
theorem Reshaped.capacity_eq : other.capacity = set.capacity := by rw [frame]
theorem Reshaped.generation_eq : other.generation = set.generation := by rw [frame]
theorem Reshaped.allocated_eq : other.allocated = set.allocated := by rw [frame]

end

structure Grown (set grown : KernelVmaSet) : Prop where
  same : set = { grown with allocated := set.allocated, capacity := set.capacity }
  capacity : set.capacity ≤ grown.capacity
  bounded : set.capacity ≤ uint32Max → grown.capacity ≤ uint32Max
  valid : set.valid = true → grown.valid = true

theorem Grown.refl (set : KernelVmaSet) : Grown set set := ⟨rfl, le_rfl, id, id⟩

theorem Grown.trans (first : Grown set grown) (snd : Grown grown last) : Grown set last := by
  refine ⟨?_, le_trans first.capacity snd.capacity, snd.bounded ∘ first.bounded, snd.valid ∘ first.valid⟩
  rw [first.same, snd.same]

section
variable (contents : Grown set grown)
include contents

theorem Grown.entries_eq : grown.entries = set.entries := by
  rw [contents.same]

theorem Grown.count_eq : grown.count = set.count := by
  rw [contents.same]

theorem Grown.self_eq : grown.self = set.self := by
  rw [contents.same]

theorem Grown.generation_eq : grown.generation = set.generation := by
  rw [contents.same]

theorem Grown.live : grown.live = set.live := live_congr contents.entries_eq contents.count_eq

end

theorem valid_iff : set.valid = true ↔ (set.allocated = false ∧ set.count = 0 ∧ set.capacity = 0) ∨
      (set.allocated = true ∧ set.capacity ≠ 0 ∧ set.count ≤ set.capacity) := by
  simp [valid, and_assoc]

theorem valid_count (valid : set.valid = true) : set.count ≤ set.capacity := by
  rcases valid_iff.mp valid with ⟨_, _⟩ | ⟨_, _, le⟩
  · omega
  · exact le

theorem growCapacity_le (grew : growCapacity required fuel cap = some res) :
    required ≤ res ∧ cap ≤ res ∧ (cap ≤ uint32Max → res ≤ uint32Max) := by
  induction fuel generalizing cap with
  | zero => simp [growCapacity] at grew
  | succ fuel ih =>
    unfold growCapacity at grew
    split at grew
    · split at grew
      · contradiction
      · obtain ⟨enough, _, le⟩ := ih grew
        exact ⟨enough, by omega, fun _ => le (by omega)⟩
    · cases grew
      exact ⟨by omega, le_rfl, id⟩

/-- Whatever the heap answers, a reservation keeps the contents, and a
successful one provides the capacity. Within the capacity it asks nothing. -/
structure Reservation (set : KernelVmaSet) (required : Nat) (world : World)
    (outcome : Status × KernelVmaSet × World) : Prop where
  contents : Grown set outcome.2.1
  shm : outcome.2.2.shm = world.shm
  enough : outcome.1 = .ok → required ≤ outcome.2.1.capacity
  quiet : required ≤ set.capacity → outcome = (.ok, set, world)

theorem reserveEntries_spec (set : KernelVmaSet) (required : Nat) (w : World) :
    Reservation set required w (set.reserveEntries required w) := by
  unfold reserveEntries
  split
  next fits =>
    exact ⟨Grown.refl _, rfl, fun _ => fits, fun _ => rfl⟩
  rename_i exceeds
  have unfit : ¬ required ≤ set.capacity := exceeds
  split
  · exact ⟨Grown.refl _, rfl, fun failed => by contradiction, fun fits => absurd fits unfit⟩
  rename_i capacity grew
  obtain ⟨enough, larger, le⟩ := growCapacity_le grew
  have wider : set.capacity ≤ capacity := by
    split at larger <;> omega
  have narrow : set.capacity ≤ uint32Max → capacity ≤ uint32Max := by
    intro old
    apply le
    split
    · decide
    · exact old
  cases reply : w.replies w.requests with
  | ok =>
    refine ⟨⟨rfl, wider, narrow, ?_⟩, rfl, fun _ => enough, fun fits => absurd fits unfit⟩
    intro valid
    have le := valid_count valid
    exact valid_iff.mpr (.inr ⟨rfl, by dsimp only; omega, by dsimp only; omega⟩)
  | _ => exact ⟨Grown.refl _, rfl, fun failed => by contradiction, fun fits => absurd fits unfit⟩

theorem recountLoop_ok (rest : Nat) (sound : ∀ vma ∈ segment cells i rest, vma.Sound)
    (room : bytes.total + bytesOf (fun _ => true) (segment cells i rest) ≤ uint64Max.toNat) : recountLoop cells rest i bytes = .ok {
      total := bytes.total + bytesOf (fun _ => true) (segment cells i rest)
      data := bytes.data + bytesOf isData (segment cells i rest)
      locked := bytes.locked + bytesOf (fun vma => vma.flags &&& flagLocked ≠ 0) (segment cells i rest) } := by
  induction rest generalizing i bytes with
  | zero => simp [recountLoop]
  | succ rest ih =>
    rw [segment_cons] at sound room ⊢
    have len := length_toNat (sound (cells i) (by simp)).nonempty
    have restSound : ∀ vma ∈ segment cells (i + 1) rest, vma.Sound := fun vma mem => sound vma (by simp [mem])
    simp only [bytesOf_cons, if_true, length] at room ⊢
    unfold recountLoop
    rw [if_neg (by omega), ih restSound (by dsimp only; omega)]
    congr 2
    · dsimp only
      omega
    · dsimp only
      split <;> omega
    · simp only [decide_not, Bool.not_eq_eq_eq_not, Bool.not_true, decide_eq_false_iff_not]
      split <;> omega

structure Counted (set : KernelVmaSet) : Prop where
  total : set.totalBytes = bytesOf (fun _ => true) set.live
  data : set.dataBytes = bytesOf KernelVma.isData set.live
  locked : set.lockedBytes = bytesOf (fun vma => vma.flags &&& flagLocked ≠ 0) set.live

theorem recountBytes_ok (laid : Layout set.live) : ∃ cnt, set.recountBytes = .ok cnt ∧ Counted cnt ∧ cnt = { set with
        totalBytes := cnt.totalBytes
        dataBytes := cnt.dataBytes
        lockedBytes := cnt.lockedBytes } := by
  have room := laid.bytesOf_le (fun _ => true) (fun _ _ => Nat.zero_le _) (Nat.zero_le _)
  have sums : recountLoop set.entries set.count 0 ⟨0, 0, 0⟩ = .ok _ := recountLoop_ok set.count laid.sound room
  refine ⟨_, by rw [recountBytes, sums], ⟨?_, ?_, ?_⟩, rfl⟩
  · exact zero_add _
  · exact zero_add _
  · exact zero_add _

end KernelVmaSet
end BoarOS.Vma
