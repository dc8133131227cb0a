import BoarOS.Vma.Lifecycle

namespace BoarOS.Vma
open List KernelVmaSet

/-! Page alignment of whole descriptors.

`split_at` moves the offset of a shared object along with the address, so the
offset keeps the alignment that `vma_valid` asks for when addresses are
aligned, and only then.
-/

variable [PageGeometry]

def PageMultiple (address : UInt64) : Prop := address.toNat % pageSize = 0

instance (address : UInt64) : Decidable (PageMultiple address) :=
  inferInstanceAs (Decidable (_ = _))

structure KernelVma.Aligned (vma : KernelVma) : Prop where
  start : PageMultiple vma.start
  stop : PageMultiple vma.stop
  offset : vma.OffsetAligned

variable {es res pre after : List KernelVma} {left right vma : KernelVma}
  {addr : UInt64} {edit : KernelVmaEdit}

namespace KernelVma.Aligned

theorem join (leftAligned : left.Aligned) (rightAligned : right.Aligned) : (left.join right).Aligned :=
  ⟨leftAligned.start, rightAligned.stop, leftAligned.offset⟩

theorem headTo (aligned : vma.Aligned) (multiple : PageMultiple addr) : (vma.headTo addr).Aligned :=
  ⟨aligned.start, multiple, aligned.offset⟩

theorem tailFrom (aligned : vma.Aligned) (sound : vma.Sound) (multiple : PageMultiple addr)
    (lo : vma.start.toNat ≤ addr.toNat) (upper : addr.toNat ≤ vma.stop.toNat) : (vma.tailFrom addr).Aligned := by
  refine ⟨multiple, aligned.stop, fun shared => ?_⟩
  change vma.kind = .anonShared ∨ vma.kind = .sysvShm at shared
  have backed : vma.kind ≠ .anonymous := by
    rcases shared with kind | kind <;> rw [kind] <;> decide
  have distance : (addr.toNat - vma.start.toNat) % pageSize = 0 := Nat.sub_mod_eq_zero_of_mod_eq (Eq.trans multiple aligned.start.symm)
  rw [KernelVma.tailFrom_offset_toNat sound backed lo upper, Nat.add_mod, aligned.offset shared, distance, Nat.zero_mod]

theorem valid (aligned : vma.Aligned) (sound : vma.Sound) : vma.valid = true := KernelVma.valid_iff.mpr ⟨sound, aligned.offset⟩

theorem of_same {moved : KernelVma} (aligned : vma.Aligned) (start : moved.start = vma.start) (stop : moved.stop = vma.stop)
    (kind : moved.kind = vma.kind) (offset : moved.backingOffset = vma.backingOffset) : moved.Aligned := by
  refine ⟨start ▸ aligned.start, stop ▸ aligned.stop, ?_⟩
  unfold KernelVma.OffsetAligned
  rw [kind, offset]
  exact aligned.offset

end KernelVma.Aligned

def AllAligned (entries : List KernelVma) : Prop := ∀ vma ∈ entries, vma.Aligned

theorem AllAligned.append_iff : AllAligned (pre ++ after) ↔ AllAligned pre ∧ AllAligned after := forall_mem_append

theorem Joined.aligned (join : Joined es res) (aligned : AllAligned es) : AllAligned res := by
  induction join with
  | refl => exact aligned
  | step joins _ ih =>
    apply ih
    obtain ⟨first, rest⟩ := AllAligned.append_iff.mp aligned
    refine AllAligned.append_iff.mpr ⟨first, ?_⟩
    simp only [AllAligned, forall_mem_cons] at rest ⊢
    exact ⟨rest.1.join rest.2.1, rest.2.2⟩

theorem Cut.aligned (cut : Cut addr es res) (laid : Layout es)
    (multiple : PageMultiple addr) (aligned : AllAligned es) : AllAligned res := by
  cases cut with
  | outside => exact aligned
  | inside lo upper =>
    rename_i pre after vma
    obtain ⟨first, rest⟩ := AllAligned.append_iff.mp aligned
    refine AllAligned.append_iff.mpr ⟨first, ?_⟩
    simp only [AllAligned, forall_mem_cons] at rest ⊢
    exact ⟨rest.1.headTo multiple, rest.1.tailFrom (laid.sound vma (by simp)) multiple (le_of_lt lo) (le_of_lt upper), rest.2⟩

theorem editEntry_aligned (aligned : vma.Aligned) : (editEntry edit vma).Aligned := by
  unfold editEntry
  split
  · exact aligned.of_same rfl rfl rfl rfl
  · exact aligned.of_same rfl rfl rfl rfl

theorem Rewriting.aligned (rewriting : Rewriting edit es res) (laid : Layout es) (start : PageMultiple edit.start)
    (stop : PageMultiple edit.stop) (new : edit.kind = .replace → edit.replacement.Aligned) (aligned : AllAligned es) : AllAligned res := by
  obtain ⟨cutStart, cutStop, parts, fresh, _, join⟩ := rewriting
  have cut := cutStop.aligned (cutStart.layout laid) stop (cutStart.aligned laid start aligned)
  rw [parts.split] at cut
  obtain ⟨first, rest⟩ := AllAligned.append_iff.mp cut
  obtain ⟨inner, last⟩ := AllAligned.append_iff.mp rest
  have rewrite : AllAligned (List.map (editEntry edit) _) := fun vma mem => by
    obtain ⟨source, inMiddle, eq⟩ := mem_map.mp mem
    exact eq ▸ editEntry_aligned (inner source inMiddle)
  apply join.aligned
  rw [fresh.split]
  refine AllAligned.append_iff.mpr ⟨first, AllAligned.append_iff.mpr ⟨?_, last⟩⟩
  unfold replaced
  cases kind : edit.kind with
  | protect | flags => exact rewrite
  | remove => exact fun vma mem => by contradiction
  | replace =>
    intro vma mem
    rw [mem_singleton.mp mem]
    exact new kind

theorem unlocked_aligned (aligned : AllAligned es) : AllAligned (es.map unlocked) := by
  intro vma mem
  obtain ⟨source, inEntries, eq⟩ := mem_map.mp mem
  exact eq ▸ (aligned source inEntries).of_same rfl rfl rfl rfl

theorem inherited_aligned (aligned : AllAligned es) : AllAligned (inherited es) :=
  unlocked_aligned fun vma mem => aligned vma (mem_of_mem_filter mem)

theorem trimmedPart_aligned (aligned : AllAligned (pre ++ vma :: after)) (multiple : PageMultiple addr) :
    AllAligned (pre ++ (trimmedPart vma addr ++ after)) := by
  obtain ⟨first, rest⟩ := AllAligned.append_iff.mp aligned
  simp only [AllAligned, forall_mem_cons] at rest
  refine AllAligned.append_iff.mpr ⟨first, AllAligned.append_iff.mpr ⟨?_, rest.2⟩⟩
  unfold trimmedPart
  split
  · exact fun vma mem => by contradiction
  intro part mem
  rw [mem_singleton.mp mem]
  exact rest.1.headTo multiple

end BoarOS.Vma
