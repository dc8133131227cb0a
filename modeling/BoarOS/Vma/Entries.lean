import BoarOS.Vma.Layout

namespace BoarOS.Vma
open Data List

namespace KernelVmaSet
variable {set : KernelVmaSet} {pre after : List KernelVma} {vma : KernelVma} {start : UInt64}

@[simp] theorem live_length : set.live.length = set.count := by simp [live]

theorem live_congr {k : KernelVmaSet} (es : k.entries = set.entries) (n : k.count = set.count) : k.live = set.live := by
  simp [live, es, n]

theorem live_parts (split : set.live = pre ++ after) : pre = segment set.entries 0 pre.length ∧
      after = segment set.entries pre.length after.length ∧ set.count = pre.length + after.length := by
  have size : set.count = pre.length + after.length := by
    rw [← live_length, split, length_append]
  have cells : set.live = segment set.entries 0 pre.length ++ segment set.entries pre.length after.length := by
    rw [live, size, segment_append, zero_add]
  obtain ⟨first, snd⟩ := append_inj (split.symm.trans cells) (by simp)
  exact ⟨first, snd, size⟩

theorem live_entry (split : set.live = pre ++ vma :: after) : set.entries pre.length = vma := by
  obtain ⟨_, cells, _⟩ := live_parts split
  rw [length_cons, segment_cons] at cells
  exact (List.cons.inj cells).1.symm

theorem live_entry_last (split : set.live = (pre ++ [vma]) ++ after) : set.entries ((pre ++ [vma]).length - 1) = vma := by
  have cell : set.live = pre ++ vma :: after := by rw [split, append_assoc]; rfl
  simpa using live_entry cell

theorem entry_mem (lt : i < set.count) : set.entries i ∈ set.live := mem_segment.mpr ⟨i, lt, by rw [zero_add]⟩

theorem live_at (lt : i < set.count) : ∃ pre after, set.live = pre ++ set.entries i :: after ∧ pre.length = i := by
  refine ⟨segment set.entries 0 i, segment set.entries (i + 1) (set.count - (i + 1)), ?_, by simp⟩
  have size : set.count = i + ((set.count - (i + 1)) + 1) := by omega
  rw [live, size, segment_append, segment_cons, zero_add]
  congr 3
  omega

theorem live_of_parts (first : segment es 0 pre.length = pre) (snd : segment es pre.length after.length = after)
    (size : n = pre.length + after.length) : segment es 0 n = pre ++ after := by
  rw [size, segment_append, zero_add, first, snd]

theorem lowerBound_bracket (laid : Layout set.live) (start : UInt64) :
    Bracket (fun index => (set.entries index).start < start) set.count (set.lowerBound start) (set.lowerBound start) := by
  apply partitionPoint_spec
  apply PrefixClosed.of_implies
  intro i j lt mem holds
  have iInside : i < set.live.length := by rw [live_length]; omega
  have jInside : j < set.live.length := by rwa [live_length]
  have apart := pairwise_iff_getElem.mp laid.apart i j iInside jInside lt
  have ne := (laid.sound (set.entries i) (entry_mem (by omega))).nonempty
  simp only [live, segment_getElem, zero_add] at apart
  simp only [decide_eq_true_eq, UInt64.lt_iff_toNat_lt] at holds ⊢
  omega

theorem lowerBound_split (laid : Layout set.live) (start : UInt64) :
    ∃ pre after, set.live = pre ++ after ∧ pre.length = set.lowerBound start ∧ (∀ vma ∈ pre, vma.start.toNat < start.toNat) ∧
      (∀ vma ∈ after, start.toNat ≤ vma.start.toNat) := by
  have bracket := lowerBound_bracket laid start
  have le := bracket.bounded
  refine ⟨segment set.entries 0 (set.lowerBound start),
    segment set.entries (set.lowerBound start) (set.count - set.lowerBound start), ?_, by simp, ?_, ?_⟩
  · have size : set.count = set.lowerBound start + (set.count - set.lowerBound start) := by omega
    rw [live]
    conv => lhs; rw [size]
    rw [segment_append, zero_add]
  · intro vma member
    obtain ⟨i, mem, cell⟩ := mem_segment.mp member
    have holds := bracket.before i mem
    rw [zero_add] at cell
    rw [decide_eq_true_eq, cell] at holds
    exact holds
  · intro vma member
    obtain ⟨i, _, cell⟩ := mem_segment.mp member
    have fails := bracket.after (set.lowerBound start + i) (by omega) (by omega)
    rw [decide_eq_false_iff_not, UInt64.lt_iff_toNat_lt, cell] at fails
    omega

theorem lowerBound_eq (laid : Layout set.live) (split : set.live = pre ++ after) (lo : ∀ vma ∈ pre, vma.start.toNat < start.toNat)
    (above : ∀ vma ∈ after, start.toNat ≤ vma.start.toNat) : set.lowerBound start = pre.length := by
  obtain ⟨first, snd, _⟩ := live_parts split
  apply (lowerBound_bracket laid start).unique (by omega)
  · intro i mem
    have member : set.entries i ∈ pre := by
      rw [first]
      exact mem_segment.mpr ⟨i, mem, by rw [zero_add]⟩
    simpa only [decide_eq_true_eq, UInt64.lt_iff_toNat_lt] using lo _ member
  intro i beyond mem
  have member : set.entries i ∈ after := by
    rw [snd]
    exact mem_segment.mpr ⟨i - pre.length, by omega, by congr 1; omega⟩
  have := above _ member
  rw [decide_eq_false_iff_not, UInt64.lt_iff_toNat_lt]
  omega

theorem moveEntries_apply (dest source n cell : Nat) : (set.moveEntries dest source n).entries cell = if dest ≤ cell ∧ cell < dest + n then
        set.entries (source + (cell - dest))
      else set.entries cell := by
  unfold moveEntries
  split
  next trivially =>
    rcases trivially with _ | _
    · rw [if_neg (by omega)]
    split
    · congr 1
      omega
    · rfl
  split
  next downwards =>
    dsimp only
    rw [copyAscending_apply downwards, add_zero]
  · exact copyDescending_apply (by omega) n cell

@[simp] theorem moveEntries_count (dest source n : Nat) : (set.moveEntries dest source n).count = set.count := by
  unfold moveEntries
  split
  · rfl
  · split <;> rfl

theorem moveEntries_eq (dest source n : Nat) : set.moveEntries dest source n =
      { set with entries := (set.moveEntries dest source n).entries } := by
  unfold moveEntries
  split
  · rfl
  · split <;> rfl

theorem setEntry_live (k : KernelVma) (split : set.live = pre ++ vma :: after) : (set.setEntry pre.length k).live = pre ++ k :: after := by
  obtain ⟨first, snd, size⟩ := live_parts split
  rw [length_cons] at size snd
  rw [segment_cons] at snd
  have rest := (List.cons.inj snd).2
  apply live_of_parts
  · dsimp only [setEntry]
    rw [segment_update (by omega)]
    exact first.symm
  · dsimp only [setEntry]
    rw [length_cons, segment_cons, Function.update_self, segment_update (by omega), ← rest]
  · exact size

theorem eraseEntry_live (w : World) (split : set.live = pre ++ vma :: after) : (set.eraseEntry pre.length w).1.live = pre ++ after := by
  obtain ⟨first, snd, size⟩ := live_parts split
  rw [length_cons] at size snd
  rw [segment_cons] at snd
  have rest := (List.cons.inj snd).2
  apply live_of_parts
  · refine (segment_congr ?_).trans first.symm
    intro i mem
    dsimp only [eraseEntry]
    rw [copyAscending_apply (by omega), if_neg (by omega)]
  · refine (segment_congr ?_).trans rest.symm
    intro i mem
    dsimp only [eraseEntry]
    rw [copyAscending_apply (by omega), if_pos (by omega)]
    congr 1
    omega
  · dsimp only [eraseEntry]
    omega

theorem placeEntry_count (i : Nat) (vma : KernelVma) : (set.placeEntry i vma).count = set.count + 1 := by
  simp [placeEntry, setEntry, moveEntries_count]

theorem placeEntry_eq (i : Nat) (vma : KernelVma) : set.placeEntry i vma = { set with
      entries := (set.placeEntry i vma).entries
      count := (set.placeEntry i vma).count } := by
  unfold placeEntry
  rw [moveEntries_eq]
  rfl

theorem placeEntry_live (vma : KernelVma) (split : set.live = pre ++ after) :
    (set.placeEntry pre.length vma).live = pre ++ vma :: after := by
  obtain ⟨first, snd, _⟩ := live_parts split
  apply live_of_parts
  · dsimp only [placeEntry, setEntry]
    rw [segment_update (by omega)]
    refine (segment_congr ?_).trans first.symm
    intro i mem
    rw [moveEntries_apply, if_neg (by omega)]
  · dsimp only [placeEntry, setEntry]
    rw [length_cons, segment_cons, Function.update_self, segment_update (by omega)]
    congr 1
    refine (segment_congr ?_).trans snd.symm
    intro i mem
    rw [moveEntries_apply, if_pos (by omega)]
    congr 1
    omega
  · rw [placeEntry_count, length_cons]
    omega

theorem removeRange_live (split : set.live = pre ++ (mid ++ after)) :
    ({ set.moveEntries pre.length (pre.length + mid.length) (set.count - (pre.length + mid.length)) with
          count := set.count - mid.length } : KernelVmaSet).live = pre ++ after := by
  obtain ⟨first, snd, size⟩ := live_parts split
  rw [length_append] at size snd
  rw [segment_append] at snd
  have rest := (append_inj snd (by simp)).2
  apply live_of_parts
  · refine (segment_congr ?_).trans first.symm
    intro i mem
    rw [moveEntries_apply, if_neg (by omega)]
  · refine (segment_congr ?_).trans rest.symm
    intro i mem
    rw [moveEntries_apply, if_pos (by omega)]
    congr 1
    omega
  · change set.count - mid.length = _
    omega

theorem mapRange_live (change : KernelVma → KernelVma) (split : set.live = pre ++ (mid ++ after)) :
    ({ set with entries := mapRange change mid.length pre.length set.entries } : KernelVmaSet).live = pre ++ (mid.map change ++ after) := by
  obtain ⟨first, snd, size⟩ := live_parts split
  rw [length_append] at size snd
  rw [segment_append] at snd
  obtain ⟨inner, last⟩ := append_inj snd (by simp)
  have moved : mid.map change = segment (mapRange change mid.length pre.length set.entries) pre.length mid.length := by
    conv => lhs; rw [inner]
    rw [segment_map]
    refine segment_congr fun i mem => ?_
    rw [mapRange_apply, if_pos (by omega)]
  change segment (mapRange change mid.length pre.length set.entries) 0 set.count = _
  refine live_of_parts ?_ ?_ (by rwa [length_append, length_map])
  · refine (segment_congr fun i mem => ?_).trans first.symm
    rw [mapRange_apply, if_neg (by omega)]
  rw [length_append, length_map, segment_append, ← moved]
  congr 1
  refine (segment_congr fun i mem => ?_).trans last.symm
  rw [mapRange_apply, if_neg (by omega)]

theorem entries_apart (laid : Layout set.live) (ordered : first < snd) (lt : snd < set.count) :
    (set.entries first).stop.toNat ≤ (set.entries snd).start.toNat := by
  have bounds : first < set.live.length ∧ snd < set.live.length := by
    rw [live_length]
    omega
  have apart := pairwise_iff_getElem.mp laid.apart first snd bounds.1 bounds.2 ordered
  simpa only [live, segment_getElem, zero_add] using apart

end KernelVmaSet
end BoarOS.Vma
